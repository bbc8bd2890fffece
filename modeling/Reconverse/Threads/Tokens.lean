import Reconverse.Lib.Handles
import Reconverse.Threads.Model

/-!
# Threads and their tokens end once

The counter `scheduled` of a thread is at least the number of copies of its token in the queue, and
larger while the thread is current: it has become current through a token, and it gives up its
share when it suspends. So `CthThreadBaseFree` never frees a token that is queued. What remains are
the tokens that are still queued when their thread ends: one that comes up while the thread is in
the pool resumes it, and the first one that comes up later frees the token of all copies. These
are the only ways in which the property fails (`ends_once_iff`).
-/

namespace Reconverse.Threads

open Function (update update_of_ne update_self)
open Lib List Pe
open Option (bind_eq_some_iff ite_none_right_eq_some map_eq_some_iff mem_toList)

variable {s s' : Pe} {t d k : Nat} {e : Event} {es : List Event} {cur : Nat}

/-! ## The ghost state grows -/

/-- What was freed and resumed stays on record. -/
structure Pe.Grows (s s' : Pe) : Prop where
  tokenFrees : s.tokenFrees <+: s'.tokenFrees
  resumes : s.resumes <+: s'.resumes

namespace Pe.Grows

theorem refl (s : Pe) : s.Grows s := ⟨prefix_rfl, prefix_rfl⟩

theorem trans {s'' : Pe} (h : s.Grows s') (h' : s'.Grows s'') : s.Grows s'' :=
  ⟨h.tokenFrees.trans h'.tokenFrees, h.resumes.trans h'.resumes⟩

theorem freeToken (s : Pe) (token : Nat) : s.Grows (s.freeToken token) :=
  ⟨prefix_append .., prefix_rfl⟩

theorem threadFree (s : Pe) (t : Nat) : s.Grows (s.cthThreadFree t) := by
  unfold cthThreadFree
  cases s.doomedThreadPool with
  | none => exact ⟨prefix_rfl, prefix_rfl⟩
  | some d =>
    show s.Grows (cthThreadBaseFree _ d)
    unfold cthThreadBaseFree
    split
    · exact ⟨prefix_append .., prefix_rfl⟩
    · exact ⟨prefix_rfl, prefix_rfl⟩

/-- `CthResume` of another thread. -/
theorem resume_of_ne {t : Option Nat} (hne : t ≠ s.cthCurrent) :
    (s.cthBaseResume t).Grows (s.cthResume t) := by
  unfold cthResume
  rw [if_pos hne]
  cases s.cthCurrent with
  | none => exact refl _
  | some tc =>
    show Pe.Grows _ (if _ then _ else _)
    split
    · exact threadFree ..
    · exact refl _

theorem resume (s : Pe) (t : Option Nat) : s.Grows (s.cthResume t) := by
  by_cases hne : t ≠ s.cthCurrent
  · have hbase : s.Grows (s.cthBaseResume t) := ⟨prefix_rfl, prefix_append ..⟩
    exact hbase.trans (resume_of_ne hne)
  · unfold cthResume
    rw [if_neg hne]
    exact refl s

/-- Suspending the current thread keeps the invariant. -/
theorem suspend (s : Pe) (cur : Nat) : s.Grows (s.cthSuspend cur) := by
  have hdrop : s.Grows (s.dropScheduled cur) := by
    unfold dropScheduled
    split
    · exact ⟨prefix_rfl, prefix_rfl⟩
    · exact refl s
  exact hdrop.trans (resume ..)

/-- What was freed and resumed stays on record in every step. -/
theorem step (h : s.step e = some s') : s.Grows s' := by
  cases e with
  | create =>
    cases h
    exact ⟨prefix_rfl, prefix_rfl⟩
  | awaken t | awakenPrio t =>
    obtain ⟨-, hs'⟩ := ite_none_right_eq_some.mp h
    cases hs'
    exact ⟨prefix_rfl, prefix_rfl⟩
  | run k =>
    obtain ⟨token, -, hs'⟩ := bind_eq_some_iff.mp h
    cases hs'
    have hpop : s.Grows { s with queue := s.queue.eraseIdx k } := ⟨prefix_rfl, prefix_rfl⟩
    refine hpop.trans ?_
    unfold cthResumeNormalThread
    split
    · exact freeToken ..
    · exact resume ..
  | suspend =>
    obtain ⟨cur, -, rfl⟩ := map_eq_some_iff.mp h
    exact suspend s cur
  | yield =>
    obtain ⟨cur, -, rfl⟩ := map_eq_some_iff.mp h
    have hawaken : s.Grows (s.cthAwaken cur) := ⟨prefix_rfl, prefix_rfl⟩
    exact hawaken.trans (suspend ..)
  | finish =>
    obtain ⟨cur, -, rfl⟩ := map_eq_some_iff.mp h
    have hexit : s.Grows (s.setExiting cur) := ⟨prefix_rfl, prefix_rfl⟩
    exact hexit.trans (suspend ..)
  | free t =>
    obtain ⟨-, hs'⟩ := ite_none_right_eq_some.mp h
    cases hs'
    unfold cthFree
    split
    · exact threadFree s t
    · exact ⟨prefix_rfl, prefix_rfl⟩

end Pe.Grows

/-- The property cannot be regained. -/
theorem Pe.EndsOnce.of_grows (h : s'.EndsOnce) (hg : s.Grows s') : s.EndsOnce :=
  ⟨(hg.tokenFrees.sublist.map Prod.fst).nodup h.once,
  fun f hf => h.unqueued f (hg.tokenFrees.subset hf),
    fun r hr => h.alive r (hg.resumes.subset hr)⟩

theorem not_freed_append {fs : List (Nat × Nat)} {x n : Nat} (hx : x ∉ fs.map Prod.fst)
    (hne : x ≠ d) : x ∉ (fs ++ [(d, n)]).map Prod.fst := by
  rw [map_append, mem_append, not_or]
  exact ⟨hx, fun hmem => hne (mem_singleton.mp hmem)⟩

/-- A token that is not queued is freed for the first time. -/
theorem Pe.EndsOnce.freeToken (h : s.EndsOnce) (hfirst : t ∉ s.tokenFrees.map Prod.fst)
    (hcount : s.queue.count t = 0) : (s.freeToken t).EndsOnce := by
  refine ⟨?_, fun f hf => ?_, h.alive⟩
  · show ((s.tokenFrees ++ [(t, s.queue.count t)]).map Prod.fst).Nodup
    rw [map_append]
    refine nodup_append.mpr ⟨h.once, nodup_singleton _, fun x hx y hy heq => ?_⟩
    obtain rfl := mem_singleton.mp hy
    exact hfirst (heq ▸ hx)
  · rcases mem_append.mp hf with hf | hf
    · exact h.unqueued f hf
    · rw [mem_singleton.mp hf]
      exact hcount

/-! ## The invariant -/

/-- The memory of thread `t` was not freed. -/
def Pe.Kept (s : Pe) (t : Nat) : Prop := t ∉ s.ended ∨ s.doomedThreadPool = some t

/-- What holds in every state of a run that meets the condition. A thread has a share in its counter
for each of its places in `shares`. -/
structure Pe.Counted (s : Pe) (shares : List Nat) : Prop where
  queued : ∀ t ∈ s.queue, t < s.created
  current : ∀ c, s.cthCurrent = some c → s.Exists c
  ended : ∀ t ∈ s.ended, t < s.created
  pool : ∀ d, s.doomedThreadPool = some d → d ∈ s.ended
  kept : ∀ t < s.created, s.Kept t → s.thread t = some t ∧ t ∉ s.tokenFrees.map Prod.fst ∧
    shares.count t ≤ (s.base t).scheduled
  gone : ∀ t ∈ s.ended, s.doomedThreadPool ≠ some t →
    t ∉ s.queue ∨ s.thread t = none ∧ t ∉ s.tokenFrees.map Prod.fst
  freed : ∀ f ∈ s.tokenFrees, f.1 ∈ s.ended
  ok : s.EndsOnce

/-- The current thread and the queued tokens have their shares. -/
def Pe.Inv (s : Pe) : Prop := s.Counted (s.cthCurrent.toList ++ s.queue)

namespace Pe.Counted

variable {shares : List Nat}

/-- A thread that exists ends; it does not have a share any more but for its tokens. -/
theorem threadFree (h : s.Counted shares) (hqueue : ∀ t, s.queue.count t ≤ shares.count t)
    (ht : s.Exists t) (hcur : s.cthCurrent ≠ some t) : (s.cthThreadFree t).Counted shares := by
  have hcurrent : ∀ c, s.cthCurrent = some c → c < s.created ∧ c ∉ t :: s.ended := fun c hc => by
    refine ⟨(h.current c hc).1, fun hmem => ?_⟩
    rcases mem_cons.mp hmem with rfl | hmem
    · exact hcur hc
    · exact (h.current c hc).2 hmem
  have hended : ∀ x ∈ t :: s.ended, x < s.created := fun x hx => by
    rcases mem_cons.mp hx with rfl | hx
    · exact ht.1
    · exact h.ended x hx
  have hkept : ∀ x, x ∉ t :: s.ended ∨ some t = some x → s.Kept x := by
    rintro x (hx | hx)
    · exact .inl fun hmem => hx (mem_cons_of_mem _ hmem)
    · exact .inl (Option.some.inj hx ▸ ht.2)
  have hgone : ∀ x ∈ t :: s.ended, some t ≠ some x → s.doomedThreadPool ≠ some x →
      x ∉ s.queue ∨ s.thread x = none ∧ x ∉ s.tokenFrees.map Prod.fst := fun x hx hne hpool => by
    rcases mem_cons.mp hx with rfl | hx
    · exact absurd rfl hne
    · exact h.gone x hx hpool
  have hpool : ∀ d, some t = some d → d ∈ t :: s.ended := fun d hd =>
    Option.some.inj hd ▸ mem_cons_self
  have hfreed : ∀ f ∈ s.tokenFrees, f.1 ∈ t :: s.ended := fun f hf =>
    mem_cons_of_mem _ (h.freed f hf)
  unfold cthThreadFree
  cases hdoomed : s.doomedThreadPool with
  | none =>
    refine ⟨h.queued, hcurrent, hended, hpool, fun x hx hk => h.kept x hx (hkept x hk), ?_, hfreed,
      h.ok.once, h.ok.unqueued, h.ok.alive⟩
    exact fun x hx hne => hgone x hx hne (by rw [hdoomed]; nofun)
  | some d =>
    have hd : d ∈ s.ended := h.pool d hdoomed
    obtain ⟨-, hfirst, hshare⟩ := h.kept d (h.ended d hd) (.inr hdoomed)
    have hother : ∀ x, x ∉ t :: s.ended ∨ some t = some x → x ≠ d := by
      rintro x (hx | hx) rfl
      · exact hx (mem_cons_of_mem _ hd)
      · exact ht.2 (Option.some.inj hx ▸ hd)
    show (cthThreadBaseFree _ d).Counted shares
    unfold cthThreadBaseFree
    split
    · rename_i hzero
      -- The counter of the old entry is 0, so its token is not queued.
      have hcount : s.queue.count d = 0 :=
        Nat.le_zero.mp (Nat.le_trans (hqueue d) (Nat.le_trans hshare (Nat.le_of_eq hzero)))
      have hok : Pe.EndsOnce { s with doomedThreadPool := some t, ended := t :: s.ended } :=
        ⟨h.ok.once, h.ok.unqueued, h.ok.alive⟩
      refine ⟨h.queued, hcurrent, hended, hpool, fun x hx hk => ?_, fun x hx hne => ?_,
        fun f hf => ?_, hok.freeToken hfirst hcount⟩
      · obtain ⟨hthread, hnot, hcnt⟩ := h.kept x hx (hkept x hk)
        exact ⟨hthread, not_freed_append hnot (hother x hk), hcnt⟩
      · by_cases hxd : x = d
        · subst hxd
          exact .inl (count_eq_zero.mp hcount)
        · have hold := hgone x hx hne fun heq => hxd (Option.mem_unique hdoomed heq).symm
          exact hold.imp_right fun ⟨hthread, hnot⟩ => ⟨hthread, not_freed_append hnot hxd⟩
      · rcases mem_append.mp hf with hf | hf
        · exact hfreed f hf
        · rw [mem_singleton.mp hf]
          exact mem_cons_of_mem _ hd
    · refine ⟨h.queued, hcurrent, hended, hpool, fun x hx hk => ?_, fun x hx hne => ?_, hfreed,
        h.ok.once, h.ok.unqueued, h.ok.alive⟩
      · show update s.thread d none x = some x ∧ _
        rw [update_of_ne (hother x hk)]
        exact h.kept x hx (hkept x hk)
      · show x ∉ s.queue ∨ update s.thread d none x = none ∧ x ∉ s.tokenFrees.map Prod.fst
        by_cases hxd : x = d
        · subst hxd
          exact .inr ⟨update_self .., hfirst⟩
        · rw [update_of_ne hxd]
          exact hgone x hx hne fun heq => hxd (Option.mem_unique hdoomed heq).symm

/-- `CthThreadFree` leaves the current thread and the queue alone. -/
theorem threadFree_frame (s : Pe) (t : Nat) :
    (s.cthThreadFree t).cthCurrent = s.cthCurrent ∧ (s.cthThreadFree t).queue = s.queue := by
  unfold cthThreadFree
  cases s.doomedThreadPool with
  | none => exact ⟨rfl, rfl⟩
  | some d =>
    show (cthThreadBaseFree _ d).cthCurrent = _ ∧ (cthThreadBaseFree _ d).queue = _
    unfold cthThreadBaseFree
    split
    · exact ⟨rfl, rfl⟩
    · exact ⟨rfl, rfl⟩

/-- Another thread becomes current. -/
theorem baseResume (h : s.Counted shares) (t : Option Nat) (ht : ∀ x, t = some x → s.Exists x) :
    (s.cthBaseResume t).Counted shares := by
  refine ⟨h.queued, ht, h.ended, h.pool, h.kept, h.gone, h.freed, h.ok.once, h.ok.unqueued,
    fun r hr => ?_⟩
  rcases mem_append.mp hr with hr | hr
  · exact h.ok.alive r hr
  · obtain ⟨x, hx, rfl⟩ := mem_map.mp hr
    exact decide_eq_false (ht x (mem_toList.mp hx)).2

/-- `CthResume` of another thread, which has a share. -/
theorem resume {t : Option Nat} (h : s.Counted (t.toList ++ s.queue))
    (ht : ∀ x, t = some x → s.Exists x) (hne : t ≠ s.cthCurrent) : (s.cthResume t).Inv := by
  have hbase := h.baseResume t ht
  unfold cthResume
  rw [if_pos hne]
  cases hcur : s.cthCurrent with
  | none => exact hbase
  | some tc =>
    show Pe.Inv (if _ then _ else _)
    split
    · have hfree := hbase.threadFree (fun x => ?_) (h.current tc hcur) (hcur ▸ hne)
      · obtain ⟨hcurrent, hqueue⟩ := threadFree_frame (s.cthBaseResume t) tc
        rw [Pe.Inv, hcurrent, hqueue]
        exact hfree
      · rw [count_append]
        exact Nat.le_add_left ..
    · exact hbase

/-- `CthSuspend` gives up the share of the current thread. -/
theorem suspend (h : s.Counted (cur :: s.queue)) (hcur : s.cthCurrent = some cur) :
    (s.cthSuspend cur).Inv := by
  have hexists := h.current cur hcur
  obtain ⟨-, -, hshare⟩ := h.kept cur hexists.1 (.inl hexists.2)
  rw [count_cons_self] at hshare
  have hpos : (s.base cur).scheduled > 0 := by omega
  rw [cthSuspend, dropScheduled, if_pos hpos]
  refine resume ⟨h.queued, h.current, h.ended, h.pool, fun x hx hk => ?_, h.gone, h.freed,
    h.ok.once, h.ok.unqueued, h.ok.alive⟩ nofun ?_
  · obtain ⟨hthread, hnot, hcnt⟩ := h.kept x hx hk
    refine ⟨hthread, hnot, ?_⟩
    show s.queue.count x ≤ (update s.base cur { s.base cur with scheduled := _ } x).scheduled
    by_cases hxc : x = cur
    · subst hxc
      rw [update_self]
      show s.queue.count x ≤ (s.base x).scheduled - 1
      omega
    · rw [update_of_ne hxc]
      exact Nat.le_trans count_le_count_cons hcnt
  · rw [hcur]
    nofun

/-- A thread gets another share. -/
theorem awaken (h : s.Counted shares) (ht : s.Exists t) :
    (s.cthAwaken t).Counted (shares ++ [t]) := by
  refine ⟨fun x hx => ?_, h.current, h.ended, h.pool, fun x hx hk => ?_, fun x hx hne => ?_,
    h.freed, h.ok.once, h.ok.unqueued, h.ok.alive⟩
  · rcases mem_append.mp hx with hx | hx
    · exact h.queued x hx
    · exact mem_singleton.mp hx ▸ ht.1
  · obtain ⟨hthread, hnot, hcnt⟩ := h.kept x hx hk
    refine ⟨hthread, hnot, ?_⟩
    show (shares ++ [t]).count x ≤ (update s.base t { s.base t with scheduled := _ } x).scheduled
    rw [count_append]
    by_cases hxt : x = t
    · subst hxt
      rw [update_self, count_singleton_self]
      exact Nat.succ_le_succ hcnt
    · rw [update_of_ne hxt, count_singleton, if_neg (by simpa using Ne.symm hxt)]
      exact hcnt
  · refine (h.gone x hx hne).imp_left fun hout hmem => ?_
    rcases mem_append.mp hmem with hmem | hmem
    · exact hout hmem
    · exact ht.2 (mem_singleton.mp hmem ▸ hx)

end Pe.Counted

/-! ## Steps -/

namespace Pe.Inv

section

variable (h : s.Inv)

include h

/-- Awakening a thread adds a token and raises its counter. -/
theorem awaken (ht : s.Exists t) : (s.cthAwaken t).Inv := by
  have hcounted := Pe.Counted.awaken h ht
  rw [append_assoc] at hcounted
  exact hcounted

/-- The order of the two statements does not matter. -/
theorem awakenPrio (ht : s.Exists t) : (s.cthAwakenPrio t).Inv := h.awaken ht

/-- Creating a thread keeps the invariant. -/
theorem create : s.cthCreate.Inv := by
  have hfresh : ∀ t, t < s.created → t ≠ s.created := fun t ht => Nat.ne_of_lt ht
  have hout (xs : List Nat) (hxs : ∀ t ∈ xs, t < s.created) : s.created ∉ xs := fun hmem =>
    Nat.lt_irrefl _ (hxs _ hmem)
  refine ⟨fun t ht => Nat.lt_succ_of_lt (h.queued t ht), fun c hc => ?_,
    fun t ht => Nat.lt_succ_of_lt (h.ended t ht), h.pool, fun t ht hk => ?_, fun t ht hne => ?_,
    h.freed, h.ok.once, h.ok.unqueued, h.ok.alive⟩
  · exact ⟨Nat.lt_succ_of_lt (h.current c hc).1, (h.current c hc).2⟩
  · show update s.thread s.created (some s.created) t = some t ∧ t ∉ s.tokenFrees.map Prod.fst ∧
      (s.cthCurrent.toList ++ s.queue).count t ≤ (update s.base s.created ⟨0, false⟩ t).scheduled
    by_cases htc : t = s.created
    · subst htc
      rw [update_self, update_self]
      refine ⟨rfl, fun hmem => ?_, ?_⟩
      · obtain ⟨f, hf, heq⟩ := mem_map.mp hmem
        exact hout s.ended h.ended (heq ▸ h.freed f hf)
      · refine Nat.le_zero.mpr (count_eq_zero.mpr fun hmem => ?_)
        rcases mem_append.mp hmem with hmem | hmem
        · exact Nat.lt_irrefl _ (h.current _ (mem_toList.mp hmem)).1
        · exact hout s.queue h.queued hmem
    · rw [update_of_ne htc, update_of_ne htc]
      exact h.kept t (by change t < s.created + 1 at ht; omega) hk
  · show t ∉ s.queue ∨ update s.thread s.created (some s.created) t = none ∧ _
    rw [update_of_ne (hfresh t (h.ended t ht))]
    exact h.gone t ht hne

theorem setExiting (t : Nat) : (s.setExiting t).Inv := by
  refine ⟨h.queued, h.current, h.ended, h.pool, fun x hx hk => ?_, h.gone, h.freed, h.ok.once,
    h.ok.unqueued, h.ok.alive⟩
  obtain ⟨hthread, hnot, hcnt⟩ := h.kept x hx hk
  refine ⟨hthread, hnot, Nat.le_trans hcnt (Nat.le_of_eq ?_)⟩
  show (s.base x).scheduled = (update s.base t { s.base t with exiting := true } x).scheduled
  by_cases hxt : x = t
  · subst hxt
    rw [update_self]
  · rw [update_of_ne hxt]

theorem suspend (hcur : s.cthCurrent = some cur) : (s.cthSuspend cur).Inv := by
  rw [Pe.Inv, hcur] at h
  exact Pe.Counted.suspend h hcur

/-- Freeing a thread keeps the invariant. -/
theorem free (ht : s.Exists t) : (s.cthFree t).Inv := by
  unfold cthFree
  split
  · rename_i hne
    obtain ⟨hcurrent, hqueue⟩ := Pe.Counted.threadFree_frame s t
    rw [Pe.Inv, hcurrent, hqueue]
    refine Pe.Counted.threadFree h (fun x => ?_) ht hne.symm
    rw [count_append]
    exact Nat.le_add_left ..
  · exact h.setExiting t

/-- The thread of a queued token: its own, unless the thread was freed. -/
theorem token {token : Nat} (hq : token ∈ s.queue) :
    (s.Kept token ∧ s.thread token = some token) ∨
      token ∈ s.ended ∧ s.thread token = none ∧ token ∉ s.tokenFrees.map Prod.fst := by
  by_cases hk : s.Kept token
  · exact .inl ⟨hk, (h.kept token (h.queued token hq) hk).1⟩
  · rw [Pe.Kept, not_or, not_not] at hk
    exact .inr ⟨hk.1, (h.gone token hk.1 hk.2).resolve_left (not_not.mpr hq)⟩

/-- A token that is run leaves the queue. -/
theorem pop (k : Nat) {shares : List Nat}
    (hcount : ∀ x, shares.count x ≤ (s.cthCurrent.toList ++ s.queue).count x) :
    Pe.Counted { s with queue := s.queue.eraseIdx k } shares := by
  refine ⟨fun t ht => h.queued t (mem_of_mem_eraseIdx ht), h.current, h.ended, h.pool,
    fun t ht hk => ?_, fun t ht hne => ?_, h.freed, h.ok.once, h.ok.unqueued, h.ok.alive⟩
  · obtain ⟨hthread, hnot, hcnt⟩ := h.kept t ht hk
    exact ⟨hthread, hnot, Nat.le_trans (hcount t) hcnt⟩
  · exact (h.gone t ht hne).imp_left fun hout hmem => hout (mem_of_mem_eraseIdx hmem)

/-- A token that meets the condition is run. -/
theorem run {token : Nat} (htoken : s.queue[k]? = some token) (hok : s.TokenOk (.run k)) :
    (Pe.cthResumeNormalThread { s with queue := s.queue.eraseIdx k } token).Inv := by
  obtain ⟨hlive, hlast⟩ := hok token htoken
  have hmem : token ∈ s.queue := mem_of_getElem? htoken
  have hperm : (token :: s.queue.eraseIdx k).Perm s.queue := (perm_cons_eraseIdx htoken).symm
  have hless (x : Nat) : (s.queue.eraseIdx k).count x ≤ s.queue.count x := by
    rw [← hperm.count_eq x]
    exact count_le_count_cons
  -- Without a switch only the share of the token is given up.
  have hstay : Pe.Counted { s with queue := s.queue.eraseIdx k }
      (s.cthCurrent.toList ++ s.queue.eraseIdx k) := by
    refine h.pop k fun x => ?_
    rw [count_append, count_append]
    exact Nat.add_le_add_left (hless x) _
  unfold cthResumeNormalThread
  rcases h.token hmem with ⟨hkept, hthread⟩ | ⟨hended, hthread, hfirst⟩
  · simp only [hthread]
    have hexists : s.Exists token :=
      ⟨h.queued token hmem, hkept.resolve_right (hlive token hthread)⟩
    by_cases hcur : some token = s.cthCurrent
    · rw [cthResume, if_neg (not_not.mpr hcur)]
      exact hstay
    · refine Pe.Counted.resume (h.pop k fun x => ?_) (fun x hx => Option.some.inj hx ▸ hexists) hcur
      show (token :: s.queue.eraseIdx k).count x ≤ _
      rw [hperm.count_eq, count_append]
      exact Nat.le_add_left ..
  · simp only [hthread]
    have hnone : token ∉ s.queue.eraseIdx k := hlast hthread
    refine ⟨hstay.queued, hstay.current, hstay.ended, hstay.pool, fun t ht hk => ?_,
      fun t ht hne => ?_, fun f hf => ?_, hstay.ok.freeToken hfirst (count_eq_zero.mpr hnone)⟩
    · obtain ⟨hown, hnot, hcnt⟩ := hstay.kept t ht hk
      refine ⟨hown, not_freed_append hnot ?_, hcnt⟩
      rintro rfl
      cases hthread.symm.trans hown
    · by_cases htt : t = token
      · subst htt
        exact .inl hnone
      · exact (hstay.gone t ht hne).imp_right fun ⟨hown, hnot⟩ => ⟨hown, not_freed_append hnot htt⟩
    · rcases mem_append.mp hf with hf | hf
      · exact h.freed f hf
      · rw [mem_singleton.mp hf]
        exact hended

/-- Every step that meets the condition keeps the invariant. -/
theorem step (hok : s.TokenOk e) (hstep : s.step e = some s') : s'.Inv := by
  cases e with
  | create =>
    cases hstep
    exact h.create
  | awaken t =>
    obtain ⟨ht, hs'⟩ := ite_none_right_eq_some.mp hstep
    cases hs'
    exact h.awaken ht
  | awakenPrio t =>
    obtain ⟨ht, hs'⟩ := ite_none_right_eq_some.mp hstep
    cases hs'
    exact h.awakenPrio ht
  | run k =>
    obtain ⟨token, htoken, hs'⟩ := bind_eq_some_iff.mp hstep
    cases hs'
    exact h.run htoken hok
  | suspend =>
    obtain ⟨cur, hcur, rfl⟩ := map_eq_some_iff.mp hstep
    exact h.suspend hcur
  | yield =>
    obtain ⟨cur, hcur, rfl⟩ := map_eq_some_iff.mp hstep
    exact (h.awaken (h.current cur hcur)).suspend hcur
  | finish =>
    obtain ⟨cur, hcur, rfl⟩ := map_eq_some_iff.mp hstep
    exact (h.setExiting cur).suspend hcur
  | free t =>
    obtain ⟨ht, hs'⟩ := ite_none_right_eq_some.mp hstep
    cases hs'
    exact h.free ht

/-- A step that does not meet the condition violates the property. -/
theorem token_ok (hstep : s.step e = some s') (hends : s'.EndsOnce) : s.TokenOk e := by
  cases e with
  | run k =>
    obtain ⟨token, htoken, hs'⟩ := bind_eq_some_iff.mp hstep
    cases hs'
    intro token' htoken'
    obtain rfl := Option.mem_unique htoken htoken'
    unfold cthResumeNormalThread at hends
    constructor
    · intro t hthread hdoomed
      simp only [hthread] at hends
      have hended := h.pool t hdoomed
      have hne : some t ≠ s.cthCurrent := fun heq => (h.current t heq.symm).2 hended
      have hresumed : (t, true) ∈
          (cthBaseResume { s with queue := s.queue.eraseIdx k } (some t)).resumes := by
        refine mem_append_right _ (mem_singleton.mpr ?_)
        exact congrArg (Prod.mk t) (decide_eq_true hended).symm
      have hgrows := Pe.Grows.resume_of_ne (s := { s with queue := s.queue.eraseIdx k }) hne
      cases (hends.of_grows hgrows).alive _ hresumed
    · intro hthread hmem
      simp only [hthread] at hends
      have hcount : (s.queue.eraseIdx k).count token = 0 :=
        hends.unqueued (token, _) (mem_append_right _ (mem_singleton_self _))
      exact count_eq_zero.mp hcount hmem
  | create | awaken t | awakenPrio t | suspend | yield | finish | free t => trivial

end

end Pe.Inv

/-! ## Runs -/

theorem Pe.initial_inv : Pe.initial.Inv :=
  ⟨nofun, nofun, nofun, nofun, nofun, nofun, nofun, nodup_nil, nofun, nofun⟩

/-- A run frees every token at most once and with no copy in the queue, and resumes no thread that
has ended, if and only if every token that the scheduler runs meets the condition: its thread is
not in the pool of one entry and, if the thread was freed, no other copy is in the queue. -/
theorem ends_once_iff (hrun : Steps Step Pe.initial es s) :
    s.EndsOnce ↔ Steps (fun s e s' => s.TokenOk e ∧ Step s e s') Pe.initial es s := by
  constructor
  · intro hends
    have hinv := initial_inv
    generalize initial = s₀ at hrun hinv
    induction hrun with
    | nil => exact .nil _
    | @cons s₀ s₁ s e es hstep hrest ih =>
      -- What was on record after the first step is on record at the end.
      have hgrows : s₁.Grows s := hrest.invariant
        (fun _ _ _ hg hstep' => hg.trans (Pe.Grows.step hstep')) (Pe.Grows.refl s₁)
      have hok := hinv.token_ok hstep (hends.of_grows hgrows)
      exact .cons ⟨hok, hstep⟩ (ih hends (hinv.step hok hstep))
  · intro hgood
    have hinv : s.Inv := hgood.invariant (fun _ _ _ h hstep => h.step hstep.1 hstep.2)
      initial_inv
    exact hinv.ok

theorem Pe.resume_queue (s : Pe) (t : Option Nat) : (s.cthResume t).queue = s.queue := by
  unfold cthResume
  split
  · cases s.cthCurrent with
    | none => rfl
    | some tc =>
      show (if _ then _ else _ : Pe).queue = _
      split
      · exact (Pe.Counted.threadFree_frame _ tc).2
      · rfl
  · rfl

theorem Pe.suspend_queue (s : Pe) (cur : Nat) : (s.cthSuspend cur).queue = s.queue := by
  rw [cthSuspend, resume_queue, dropScheduled]
  split <;> rfl

/-- Only tokens of threads that exist are enqueued. -/
theorem Pe.Inv.mem_queue (h : s.Inv) (hstep : s.step e = some s') (ht : t ∈ s'.queue) :
    t ∈ s.queue ∨ s.Exists t := by
  have happend {x : Nat} (hx : s.Exists x) (hmem : t ∈ s.queue ++ [x]) :
      t ∈ s.queue ∨ s.Exists t := by
    rcases mem_append.mp hmem with hmem | hmem
    · exact .inl hmem
    · exact .inr (mem_singleton.mp hmem ▸ hx)
  cases e with
  | create =>
    cases hstep
    exact .inl ht
  | awaken x | awakenPrio x =>
    obtain ⟨hx, hs'⟩ := ite_none_right_eq_some.mp hstep
    cases hs'
    exact happend hx ht
  | run k =>
    obtain ⟨token, -, hs'⟩ := bind_eq_some_iff.mp hstep
    cases hs'
    refine .inl (mem_of_mem_eraseIdx (i := k) ?_)
    unfold cthResumeNormalThread at ht
    split at ht
    · exact ht
    · rwa [resume_queue] at ht
  | suspend =>
    obtain ⟨cur, -, rfl⟩ := map_eq_some_iff.mp hstep
    rw [suspend_queue] at ht
    exact .inl ht
  | yield =>
    obtain ⟨cur, hcur, rfl⟩ := map_eq_some_iff.mp hstep
    rw [cthYield, suspend_queue] at ht
    exact happend (h.current cur hcur) ht
  | finish =>
    obtain ⟨cur, -, rfl⟩ := map_eq_some_iff.mp hstep
    rw [cthThreadFinished, suspend_queue] at ht
    exact .inl ht
  | free x =>
    obtain ⟨-, hs'⟩ := ite_none_right_eq_some.mp hstep
    cases hs'
    unfold cthFree at ht
    split at ht
    · rw [(Pe.Counted.threadFree_frame s x).2] at ht
      exact .inl ht
    · exact .inl ht

/-- In particular a run keeps the property if no copy of the token of a thread is in the queue when
the thread ends. -/
theorem ends_once_of_not_queued (hrun : Steps (fun s e s' => Step s e s' ∧
      ∀ t ∈ s'.ended, t ∈ s.ended ∨ t ∉ s'.queue) Pe.initial es s) : s.EndsOnce := by
  suffices hinv : s.Inv ∧ ∀ t ∈ s.ended, t ∉ s.queue from hinv.1.ok
  refine hrun.invariant (I := fun s => s.Inv ∧ ∀ t ∈ s.ended, t ∉ s.queue) ?_ ⟨initial_inv, nofun⟩
  rintro s e s' ⟨h, hout⟩ ⟨hstep, hend⟩
  -- The threads of the queued tokens have not ended.
  have hok : s.TokenOk e := by
    cases e with
    | run k =>
      intro token htoken
      have hmem := mem_of_getElem? htoken
      rcases h.token hmem with ⟨-, hthread⟩ | ⟨hended, -⟩
      · refine ⟨fun t ht hpool => ?_, fun hnone => ?_⟩
        · obtain rfl := Option.mem_unique hthread ht
          exact hout _ (h.pool _ hpool) hmem
        · cases hthread.symm.trans hnone
      · exact absurd hmem (hout token hended)
    | create | awaken | awakenPrio | suspend | yield | finish | free => trivial
  refine ⟨h.step hok hstep, fun t ht hmem => ?_⟩
  rcases hend t ht with hold | hnot
  · rcases h.mem_queue hstep hmem with hqueued | hexists
    · exact hout t hold hqueued
    · exact hexists.2 hold
  · exact hnot hmem

/-- A thread that yields once and finishes. -/
theorem thread_that_yields : ∃ s, Steps Step Pe.initial
      [.create, .awaken 0, .run 0, .yield, .run 0, .finish] s ∧
      s.resumes = [(0, false), (0, false)] ∧
      (s.EndsOnce ↔ Steps (fun s e s' => s.TokenOk e ∧ Step s e s') Pe.initial
        [.create, .awaken 0, .run 0, .yield, .run 0, .finish] s) := by
  obtain ⟨s, hsteps, hresumes⟩ : ∃ s, Steps Step initial
      [.create, .awaken 0, .run 0, .yield, .run 0, .finish] s ∧
      s.resumes = [(0, false), (0, false)] := Steps.exists_of_any (by decide)
  exact ⟨s, hsteps, hresumes, ends_once_iff hsteps⟩

/-- A thread that was awakened twice finishes, and its second token resumes it again. If it was
awakened three times and leaves the pool before its other tokens come up, then its token is freed
twice, the first time while a copy is in the queue. -/
theorem finished_thread_resumed :
    (∃ s, Steps Step Pe.initial [.create, .awaken 0, .awaken 0, .run 0, .finish, .run 0] s ∧
      s.ended = [0] ∧ s.resumes = [(0, false), (0, true)]) ∧
    ∃ s, Steps Step Pe.initial [.create, .awaken 0, .create, .awaken 1, .awaken 0, .awaken 0,
    .run 0, .finish,
      .run 0, .finish, .run 0, .run 0] s ∧ s.tokenFrees = [(0, 1), (0, 0)] := by
  constructor
  · exact Steps.exists_of_any (by decide)
  · exact Steps.exists_of_any (by decide)

end Reconverse.Threads
