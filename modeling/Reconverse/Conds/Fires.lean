import Reconverse.Conds.Callbacks

/-!
# The calls of the program

A registration, a cancel call and a raise keep the invariant, and so do the returns of the
callbacks. The main result says when the callbacks of a run fire.

Handles are 32-bit numbers that are given out one after the other, so they name one callback only
as long as fewer than `2 ^ 31` callbacks are registered. `stale_handle_cancels_another` shows that
a handle whose callback has fired long ago removes another callback after `2 ^ 32` registrations.
-/

namespace Reconverse.Conds

open Function (update update_self update_of_ne)
open Lib.CInt List Pe

variable {s s' : Pe} {g : Registration} {key' : Key} {n : Nat} {regs : List Registration}
  {f : Frame} {key : Key} {c : Nat}

/-- A callback is running in every raise that runs. -/
def Settled (s : Pe) : Prop := ∀ f ∈ s.stack, f.IsCalling

/-! ## Raises -/

/-- A raise begins. -/
theorem Inv.start_raise (hi : Inv s) (hall : Settled s) (c : Nat) : Inv (s.startRaise c) := by
  have hlt : ∀ f ∈ s.stack, f.raise < s.raises.length := by
    intro f hf
    obtain ⟨ρ, hρ, -⟩ := hi.frames.ok f hf
    exact (List.getElem?_eq_some_iff.mp hρ).1
  have hnew : (s.startRaise c).raises[s.raises.length]? =
      some ⟨c, s.regs.length, s.cancelled, (s.lists (.once, c)).flag⟩ := by
    unfold startRaise
    simp
  have hold : ∀ r, r < s.raises.length → (s.startRaise c).raises[r]? = s.raises[r]? :=
    fun r hr => getElem?_append_left hr
  -- A raise that has returned is an old one.
  have hreturned : ∀ r ρ, (s.startRaise c).raises[r]? = some ρ → (s.startRaise c).Returned r →
      s.raises[r]? = some ρ ∧ s.Returned r := by
    intro r ρ hρ hr
    have hne : s.raises.length ≠ r := hr _ mem_cons_self
    have hbound := (List.getElem?_eq_some_iff.mp hρ).1
    have hlen : (s.startRaise c).raises.length = s.raises.length + 1 := length_append
    rw [hold r (by omega)] at hρ
    exact ⟨hρ, fun f hf => hr f (mem_cons_of_mem _ hf)⟩
  refine ⟨hi.lists.congr (fun _ => rfl) (fun _ => rfl) rfl rfl rfl, ?_, ?_, ?_⟩
  · refine hi.onces.congr hi.lists (fun _ => rfl) rfl rfl (fun _ _ _ _ => rfl) fun c' p => ?_
    show RunningIn (_ :: s.stack) c' p ↔ _
    rw [running_cons, or_iff_right fun h => h.2]
  · refine ⟨?_, fun f hf => ?_, fun c' => ?_, ?_, hall⟩
    · exact pairwise_cons.mpr ⟨fun f hf => hlt f hf, hi.frames.order⟩
    · rcases mem_cons.mp hf with rfl | hf
      · refine ⟨_, hnew, rfl, rfl, le_refl _, rfl, fun n g hg hkey => ?_⟩
        refine countP_eq_zero.mpr fun x hx => ?_
        have hx' := hi.done.raise_lt x hx
        simp only [decide_eq_true_eq, not_and]
        exact fun _ => hx'.ne
      · obtain ⟨ρ, hρ, hok⟩ := hi.frames.ok f hf
        exact ⟨ρ, (hold _ (hlt f hf)).trans hρ, hok⟩
    · show (s.lists (.once, c')).flag = true ↔ ∃ g ∈ _ :: s.stack, g.cond = c' ∧ g.IsRemoving
      rw [hi.frames.flag c', exists_mem_cons_iff, or_iff_right fun h => h.2]
    · exact pairwise_cons.mpr ⟨fun _ _ h => h.elim, hi.frames.alone⟩
  · refine ⟨fun r ρ hρ hr => ?_, fun r ρ hρ hr => ?_, fun x hx => ?_, hi.done.since, fun ρ hρ => ?_⟩
    · obtain ⟨hρ, hr⟩ := hreturned r ρ hρ hr
      exact hi.done.once r ρ hρ hr
    · obtain ⟨hρ, hr⟩ := hreturned r ρ hρ hr
      exact hi.done.keep r ρ hρ hr
    · have hx' := hi.done.raise_lt x hx
      have hlen : (s.startRaise c).raises.length = s.raises.length + 1 := length_append
      omega
    · rcases mem_append.mp hρ with hρ | hρ
      · exact hi.done.regs_le ρ hρ
      · rw [mem_singleton.mp hρ]
        exact le_refl _

/-- `CcdRaiseCondition` up to its first callback. -/
theorem Inv.raise (hi : Inv s) (hall : Settled s)
    (h : s.ccdRaiseCondition c = some s') : Inv s' ∧ Settled s' := by
  have hstart := hi.start_raise hall c
  have hstack : (s.startRaise c).stack = ⟨s.raises.length, c, .atOnce⟩ :: s.stack := rfl
  unfold ccdRaiseCondition callCblistRemove at h
  simp only at h
  split at h
  next hskip => exact (hstart.skip_once hstack rfl hskip).callCblistKeep rfl rfl h
  next hrun =>
    rw [not_or, Bool.not_eq_true] at hrun
    refine ⟨hstart.start_remove hstack rfl rfl hrun.1 hrun.2 h, ?_⟩
    obtain ⟨cb, -, rfl⟩ := call_eq_some h
    exact forall_mem_cons.mpr ⟨trivial, hall⟩

/-- The running callback returns. -/
theorem Inv.ret (hi : Inv s) (hall : Settled s) (h : s.callbackReturn = some s') :
    Inv s' ∧ Settled s' := by
  unfold callbackReturn at h
  split at h
  next => cases h
  next f rest hstack =>
    have hrest : ∀ g ∈ rest, g.IsCalling :=
      fun g hg => hall g (hstack ▸ mem_cons_of_mem _ hg)
    split at h
    next i len since hphase =>
      split at h
      next hzero =>
        subst hzero
        exact (hi.end_remove hstack hphase).callCblistKeep rfl rfl h
      next hpos =>
        refine ⟨hi.next_remove hstack hphase hpos h, ?_⟩
        obtain ⟨cb, -, rfl⟩ := call_eq_some h
        exact forall_mem_cons.mpr ⟨trivial, hrest⟩
    next i len since hphase =>
      split at h
      next hlt =>
        refine ⟨hi.next_keep hstack hphase hlt h, ?_⟩
        obtain ⟨cb, -, rfl⟩ := call_eq_some h
        exact forall_mem_cons.mpr ⟨trivial, hrest⟩
      next hlast =>
        cases h
        exact ⟨hi.end_keep hstack hphase hlast, hrest⟩
    next => cases h

/-! ## Registrations -/

/-- What a registration changes. -/
theorem append_elem_eq (s : Pe) (key : Key) : s.appendElem key = { s with
    lists := update s.lists key { s.lists key with
      elems := (s.lists key).elems ++ [⟨s.regs.length, (s.lists key).nextId⟩]
      nextId := int ((s.lists key).nextId + 1) }
    numTimed := (s.addTimed key.2 1).numTimed
    regs := s.regs ++ [⟨key, (s.lists key).nextId⟩] } := by
  unfold appendElem addTimed
  split <;> rfl

/-- Nothing that was fired has the number of the next registration. -/
theorem Done.fired_lt (h : Done s) {x : Firing} (hx : x ∈ s.fired) : x.reg < s.regs.length := by
  obtain ⟨hlt, hle⟩ := h.since x hx
  omega

theorem Done.hits_new (h : Done s) : s.hits s.regs.length = 0 := by
  refine countP_eq_zero.mpr fun x hx => ?_
  simpa using (h.fired_lt hx).ne

theorem Done.hits_in_new (h : Done s) (r : Nat) : s.hitsIn s.regs.length r = 0 := by
  refine countP_eq_zero.mpr fun x hx => ?_
  have hne := (h.fired_lt hx).ne
  simp [hne]

/-- A registration is an old one or the last one. -/
theorem regs_append_cases {g₀ g : Registration} (h : (regs ++ [g₀])[n]? = some g) :
    (n < regs.length ∧ regs[n]? = some g) ∨ (n = regs.length ∧ g = g₀) := by
  rcases lt_or_ge n regs.length with hlt | hge
  · rw [getElem?_append_left hlt] at h
    exact .inl ⟨hlt, h⟩
  · rw [getElem?_append_right hge] at h
    obtain ⟨hlt, heq⟩ := List.getElem?_eq_some_iff.mp h
    rw [length_singleton] at hlt
    refine .inr ⟨by omega, ?_⟩
    rw [← heq, getElem_singleton]

theorem regs_append_left (g₀ : Registration)
    (h : regs[n]? = some g) : (regs ++ [g₀])[n]? = some g := by
  rw [getElem?_append_left (List.getElem?_eq_some_iff.mp h).1]
  exact h

/-- A state after a registration, field by field. -/
structure Appended (s s' : Pe) (key : Key) : Prop where
  self : s'.lists key = { s.lists key with
    elems := (s.lists key).elems ++ [⟨s.regs.length, (s.lists key).nextId⟩]
    nextId := int ((s.lists key).nextId + 1) }
  other : ∀ key', key' ≠ key → s'.lists key' = s.lists key'
  numTimed : s'.numTimed = (s.addTimed key.2 1).numTimed
  regs : s'.regs = s.regs ++ [⟨key, (s.lists key).nextId⟩]
  stack : s'.stack = s.stack
  raises : s'.raises = s.raises
  fired : s'.fired = s.fired
  cancelled : s'.cancelled = s.cancelled

theorem appended (s : Pe) (key : Key) : Appended s (s.appendElem key) key := by
  rw [append_elem_eq]
  exact ⟨update_self .., fun key' h => update_of_ne h .., rfl, rfl, rfl, rfl, rfl, rfl⟩

namespace Appended

variable {key : Key}

section

variable (h : Appended s s' key) {cb : CcdCondCallback}

include h

theorem hits_eq (n : Nat) : s'.hits n = s.hits n := by
  unfold hits
  rw [h.fired]

theorem hits_in_eq (n r : Nat) : s'.hitsIn n r = s.hitsIn n r := by
  unfold hitsIn
  rw [h.fired]

/-- A registration sets no flag. -/
theorem flag_eq (key' : Key) : (s'.lists key').flag = (s.lists key').flag := by
  by_cases hk : key' = key
  · rw [hk, h.self]
  · rw [h.other key' hk]

/-- Elements keep their places; the new one comes last in its list. -/
theorem elem_cases {p : Nat} (hcb : (s'.lists key').elems[p]? = some cb) :
    (s.lists key').elems[p]? = some cb ∨
      (key' = key ∧ p = (s.lists key).elems.length ∧
        cb = ⟨s.regs.length, (s.lists key).nextId⟩) := by
  by_cases hk : key' = key
  · subst hk
    rw [h.self] at hcb
    rcases lt_or_ge p (s.lists key').elems.length with hlt | hge
    · rw [getElem?_append_left hlt] at hcb
      exact .inl hcb
    · rw [getElem?_append_right hge] at hcb
      obtain ⟨hlt, heq⟩ := List.getElem?_eq_some_iff.mp hcb
      rw [length_singleton] at hlt
      refine .inr ⟨rfl, by omega, ?_⟩
      rw [← heq, getElem_singleton]
  · rw [h.other key' hk] at hcb
    exact .inl hcb

/-- It takes no callback away. -/
theorem mem_of_mem (hcb : cb ∈ (s.lists key').elems) : cb ∈ (s'.lists key').elems := by
  by_cases hk : key' = key
  · subst hk
    rw [h.self]
    exact mem_append_left _ hcb
  · rw [h.other key' hk]
    exact hcb

/-- The lists are in order after it. -/
theorem lists (hi : Inv s) : Lists s' := by
  have hlt : ∀ key', ∀ cb ∈ (s.lists key').elems, cb.reg < s.regs.length :=
    fun key' cb hcb => hi.lists.reg_lt hcb
  have hsame : ∀ key', key' ≠ (key.1, key.2) → (s'.lists key').elems = (s.lists key').elems :=
    fun key' hk => by rw [h.other key' hk]
  have hlen : ((s'.lists (key.1, key.2)).elems.length : Int) =
      (s.lists (key.1, key.2)).elems.length + 1 := by
    rw [h.self, length_append]
    rfl
  refine ⟨fun key' cb hcb => ?_, fun key' => ?_, fun key' cb hcb => ?_,
    fun n g hg hk hlive => ?_, ?_, fun key' => ?_, fun n g hg => ?_, ?_⟩
  · obtain ⟨p, hp⟩ := mem_iff_getElem?.mp hcb
    rw [h.regs]
    rcases h.elem_cases hp with hold | ⟨rfl, -, rfl⟩
    · exact regs_append_left _ (hi.lists.elem key' cb (mem_of_getElem? hold))
    · simp
  · by_cases hk : key' = key
    · subst hk
      rw [h.self]
      refine pairwise_append.mpr ⟨hi.lists.sorted key', pairwise_singleton .., ?_⟩
      intro a ha b hb
      rw [mem_singleton.mp hb]
      exact hlt key' a ha
    · rw [h.other key' hk]
      exact hi.lists.sorted key'
  · obtain ⟨p, hp⟩ := mem_iff_getElem?.mp hcb
    rw [h.cancelled]
    rcases h.elem_cases hp with hold | ⟨rfl, -, rfl⟩
    · exact hi.lists.live key' cb (mem_of_getElem? hold)
    · intro hmem
      exact (hi.lists.cancelled_lt _ hmem).false
  · rw [h.regs] at hg
    rw [h.cancelled] at hlive
    rcases regs_append_cases hg with ⟨-, hold⟩ | ⟨rfl, rfl⟩
    · obtain ⟨cb, hcb, hreg⟩ := hi.lists.kept n g hold hk hlive
      exact ⟨cb, h.mem_of_mem hcb, hreg⟩
    · refine ⟨⟨s.regs.length, (s.lists key).nextId⟩, ?_, rfl⟩
      rw [h.self]
      exact mem_append_right _ mem_cons_self
  · intro n hn
    rw [h.cancelled] at hn
    rw [h.regs, length_append]
    have := hi.lists.cancelled_lt n hn
    omega
  · rw [h.regs, countP_append, countP_singleton]
    by_cases hk : key' = key
    · subst hk
      rw [h.self]
      simp only [decide_true, if_true]
      rw [hi.lists.nextId key', int_int_add]
      congr 1
    · rw [h.other key' hk, hi.lists.nextId key']
      simp only [Ne.symm hk, decide_false, Bool.false_eq_true, if_false, add_zero]
  · rw [h.regs] at hg ⊢
    rcases regs_append_cases hg with ⟨hn, hold⟩ | ⟨rfl, rfl⟩
    · rw [take_append_of_le_length (le_of_lt hn)]
      exact hi.lists.handle n g hold
    · rw [take_left' rfl]
      exact hi.lists.nextId key
  · exact timed_of_key hi.lists.timed hsame hlen h.numTimed

end

/-- Nothing that is running walks over the new place. -/
theorem not_running (hi : Inv s) (c : Nat) :
    ¬ RunningIn s.stack c (s.lists (.once, c)).elems.length := by
  rintro ⟨f, hf, rfl, hwin⟩
  obtain ⟨ρ, -, -, -, -, hph⟩ := hi.frames.ok f hf
  unfold Frame.InWindow at hwin
  split at hwin
  next i len since hphase =>
    rw [hphase] at hph
    have hlen := hph.1.2.1
    omega
  next => exact hwin

section

variable (h : Appended s s' key) {ρ : Raise}

include h

/-- One-time callbacks were fired at most once, and the new one not at all. -/
theorem onces (hi : Inv s) : Onces s' := by
  refine ⟨fun n g hg hk => ?_, fun n g hg hk hlive => ?_, fun c p cb hcb hr => ?_,
    fun c p cb hcb hr => ?_⟩
  · rw [h.hits_eq]
    rw [h.regs] at hg
    rcases regs_append_cases hg with ⟨-, hold⟩ | ⟨rfl, rfl⟩
    · exact hi.onces.hits_le n g hold hk
    · rw [hi.done.hits_new]
      exact Nat.zero_le 1
  · rw [h.hits_eq]
    rw [h.regs] at hg
    rw [h.cancelled] at hlive
    rcases regs_append_cases hg with ⟨-, hold⟩ | ⟨rfl, rfl⟩
    · rcases hi.onces.gone n g hold hk hlive with ⟨cb, hcb, hreg⟩ | hone
      · exact .inl ⟨cb, h.mem_of_mem hcb, hreg⟩
      · exact .inr hone
    · refine .inl ⟨⟨s.regs.length, (s.lists key).nextId⟩, ?_, rfl⟩
      rw [h.self]
      exact mem_append_right _ mem_cons_self
  · rw [h.stack] at hr
    rw [h.hits_eq]
    rcases h.elem_cases hcb with hold | ⟨rfl, rfl, rfl⟩
    · exact hi.onces.fired c p cb hold hr
    · exact absurd hr (not_running hi c)
  · rw [h.stack] at hr
    rw [h.hits_eq]
    rcases h.elem_cases hcb with hold | ⟨-, -, rfl⟩
    · exact hi.onces.waiting c p cb hold hr
    · exact hi.done.hits_new

/-- A raise that is over needs no callback that was registered later. -/
theorem once_done (hle : ρ.regs ≤ s.regs.length) (hd : OnceDone s ρ) : OnceDone s' ρ := by
  intro hnested n g hg hk hlt hlive
  rw [h.regs] at hg
  rw [h.hits_eq]
  rcases regs_append_cases hg with ⟨-, hold⟩ | ⟨rfl, -⟩
  · exact hd hnested n g hold hk hlt (h.cancelled ▸ hlive)
  · omega

/-- No kept callback was fired in the raise, the new one included. -/
theorem no_keep (hi : Inv s) {r : Nat} (hd : NoKeep s r) : NoKeep s' r := by
  intro n g hg hk
  rw [h.regs] at hg
  rw [h.hits_in_eq]
  rcases regs_append_cases hg with ⟨-, hold⟩ | ⟨rfl, -⟩
  · exact hd n g hold hk
  · exact hi.done.hits_in_new r

/-- A walk goes on over the places it began with. -/
theorem walks {i len since : Nat}
    (hw : Walks s key' i len since ρ) : Walks s' key' i len since ρ := by
  obtain ⟨hlt, hlen, hregs, hsince, hfirst⟩ := hw
  have hgrow : (s.lists key').elems.length ≤ (s'.lists key').elems.length := by
    by_cases hk : key' = key
    · subst hk
      rw [h.self, length_append]
      exact Nat.le_add_right ..
    · rw [h.other key' hk]
  refine ⟨hlt, le_trans hlen hgrow, hregs, ?_, fun p cb hcb => ?_⟩
  · rw [h.regs, length_append]
    omega
  · rcases h.elem_cases hcb with hold | ⟨rfl, rfl, rfl⟩
    · exact hfirst p cb hold
    · exact iff_of_false (by simp only; omega) (by omega)

/-- A raise that runs does not notice a registration. -/
theorem frame_ok (hi : Inv s) (hcalling : f.IsCalling) (hok : FrameOk s f ρ) : FrameOk s' f ρ := by
  obtain ⟨hcond, hcan, hle, hphase⟩ := hok
  refine ⟨hcond, hcan.trans h.cancelled.symm, ?_, ?_⟩
  · rw [h.regs, length_append]
    omega
  obtain ⟨i, len, since, hf⟩ | ⟨i, len, since, hf⟩ := hcalling.cases <;> rw [hf] at hphase ⊢
  · exact ⟨h.walks hphase.1, h.no_keep hi hphase.2⟩
  · obtain ⟨honce, hwalks, hkept⟩ := hphase
    refine ⟨h.once_done hle honce, h.walks hwalks, fun p cb hcb => ?_⟩
    rw [h.hits_in_eq]
    rcases h.elem_cases hcb with hold | ⟨rfl, rfl, rfl⟩
    · exact hkept p cb hold
    · obtain ⟨hlt, hlen, -⟩ := hwalks
      rw [if_neg (by omega)]
      exact hi.done.hits_in_new f.raise

/-- A registration keeps the invariant. -/
theorem inv (hi : Inv s) (hall : Settled s) : Inv s' ∧ Settled s' := by
  refine ⟨⟨h.lists hi, h.onces hi, ?_, ?_⟩, by unfold Settled; rw [h.stack]; exact hall⟩
  · refine ⟨h.stack ▸ hi.frames.order, fun f hf => ?_, fun c => ?_, h.stack ▸ hi.frames.alone,
      h.stack ▸ hi.frames.calling⟩
    · rw [h.stack] at hf
      obtain ⟨ρ, hρ, hok⟩ := hi.frames.ok f hf
      exact ⟨ρ, h.raises ▸ hρ, h.frame_ok hi (hall f hf) hok⟩
    · rw [h.flag_eq, h.stack]
      exact hi.frames.flag c
  · have hreturned : ∀ r, s'.Returned r → s.Returned r := by
      intro r hr
      unfold Pe.Returned at hr
      rw [h.stack] at hr
      exact hr
    refine ⟨fun r ρ hρ hr => ?_, fun r ρ hρ hr n g hg hk hlt hlive => ?_, ?_, fun x hx => ?_,
      fun ρ hρ => ?_⟩
    · rw [h.raises] at hρ
      exact h.once_done (hi.done.regs_le ρ (mem_of_getElem? hρ))
        (hi.done.once r ρ hρ (hreturned r hr))
    · rw [h.raises] at hρ
      rw [h.regs] at hg
      rw [h.hits_in_eq]
      have hle := hi.done.regs_le ρ (mem_of_getElem? hρ)
      rcases regs_append_cases hg with ⟨-, hold⟩ | ⟨rfl, -⟩
      · exact hi.done.keep r ρ hρ (hreturned r hr) n g hold hk hlt hlive
      · omega
    · rw [h.fired, h.raises]
      exact hi.done.raise_lt
    · rw [h.fired] at hx
      obtain ⟨hlt, hle⟩ := hi.done.since x hx
      rw [h.regs, length_append]
      omega
    · rw [h.raises] at hρ
      have hle := hi.done.regs_le ρ hρ
      rw [h.regs, length_append]
      omega

end

end Appended

/-! ## Cancel calls -/

/-- A state after a cancel call that found the callback `cb`, field by field. -/
structure Cancelled (s s' : Pe) (key : Key) (cb : CcdCondCallback) : Prop where
  self : ∃ as bs, (s.lists key).elems = as ++ cb :: bs ∧ (s'.lists key).elems = as ++ bs
  other : ∀ key', key' ≠ key → (s'.lists key').elems = (s.lists key').elems
  nextId : ∀ key', (s'.lists key').nextId = (s.lists key').nextId
  flag : ∀ key', (s'.lists key').flag = (s.lists key').flag
  numTimed : s'.numTimed = (s.addTimed key.2 (-1)).numTimed
  regs : s'.regs = s.regs
  stack : s'.stack = s.stack
  raises : s'.raises = s.raises
  fired : s'.fired = s.fired
  cancelled : s'.cancelled = cb.reg :: s.cancelled

/-- A cancel call finds no callback with the handle, or it removes one. -/
theorem remove_elem_cases (s : Pe) (key : Key) (id : Int) :
    ((∀ cb ∈ (s.lists key).elems, cb.id ≠ id) ∧ s.removeElem key id = s) ∨
      ∃ cb, cb.id = id ∧ Cancelled s (s.removeElem key id) key cb := by
  unfold removeElem
  split
  next hnone =>
    refine .inl ⟨fun cb hcb => ?_, rfl⟩
    simpa using find?_eq_none.mp hnone cb hcb
  next cb hcb =>
    refine .inr ⟨cb, by simpa using find?_some hcb, ?_⟩
    obtain ⟨hid, as, bs, heq, has⟩ := find?_eq_some_iff_append.mp hcb
    have herase : (s.lists key).elems.eraseP (·.id = id) = as ++ bs := by
      rw [heq, eraseP_append_right]
      · exact congrArg (as ++ ·) (eraseP_cons_of_pos hid)
      · simpa using has
    have hlists : (s.addTimed key.2 (-1)).lists = s.lists := by
      unfold addTimed
      split <;> rfl
    unfold setElems
    rw [hlists, herase]
    have hsplit : ∀ key', update s.lists key { s.lists key with elems := as ++ bs } key' =
        if key' = key then { s.lists key with elems := as ++ bs } else s.lists key' := by
      intro key'
      by_cases hk : key' = key
      · rw [if_pos hk, hk, update_self]
      · rw [if_neg hk, update_of_ne hk]
    refine ⟨⟨as, bs, heq, ?_⟩, fun key' hk => ?_, fun key' => ?_, fun key' => ?_, rfl, ?_, ?_, ?_,
      ?_, rfl⟩
    · simp only [update_self]
    · simp only [update_of_ne hk]
    iterate 2
      · simp only [hsplit key']
        split
        next hk => rw [hk]
        next => rfl
    all_goals
      unfold addTimed
      split <;> rfl

namespace Cancelled

variable {key : Key} {cb : CcdCondCallback}

section

variable (h : Cancelled s s' key cb)

include h

theorem hits_eq (n : Nat) : s'.hits n = s.hits n := by
  unfold hits
  rw [h.fired]

/-- The callback that is taken away was in its list. -/
theorem mem : cb ∈ (s.lists key).elems := by
  obtain ⟨as, bs, heq, -⟩ := h.self
  rw [heq]
  exact mem_append_right _ mem_cons_self

/-- Every list loses the cancelled callback and no other one. -/
theorem elems_eq (hl : Lists s) (key' : Key) :
    (s'.lists key').elems = (s.lists key').elems.filter (·.reg ≠ cb.reg) := by
  by_cases hk : key' = key
  · subst hk
    obtain ⟨as, bs, heq, heq'⟩ := h.self
    have hsorted := hl.sorted key'
    rw [heq, pairwise_append, pairwise_cons] at hsorted
    obtain ⟨-, ⟨hright, -⟩, hleft⟩ := hsorted
    have has : as.filter (·.reg ≠ cb.reg) = as := by
      refine filter_eq_self.mpr fun a ha => ?_
      exact decide_eq_true (hleft a ha cb mem_cons_self).ne
    have hbs : bs.filter (·.reg ≠ cb.reg) = bs :=
      filter_eq_self.mpr fun b hb => decide_eq_true (hright b hb).ne'
    rw [heq, heq', filter_append, has, filter_cons_of_neg (by simp), hbs]
  · rw [h.other key' hk, filter_eq_self.mpr]
    intro a ha
    refine decide_eq_true fun heq => hk ?_
    have hreg := hl.elem key' a ha
    rw [heq, hl.elem key cb h.mem] at hreg
    exact congrArg Registration.key (Option.some.inj hreg).symm

theorem mem_iff (hl : Lists s) {a : CcdCondCallback} :
    a ∈ (s'.lists key').elems ↔ a ∈ (s.lists key').elems ∧ a.reg ≠ cb.reg := by
  rw [h.elems_eq hl, mem_filter, decide_eq_true_eq]

theorem lists (hl : Lists s) : Lists s' := by
  have hlen : ((s'.lists (key.1, key.2)).elems.length : Int) =
      (s.lists (key.1, key.2)).elems.length + -1 := by
    obtain ⟨as, bs, heq, heq'⟩ := h.self
    rw [heq, heq', length_append, length_append, length_cons]
    omega
  refine ⟨fun key' a ha => ?_, fun key' => ?_, fun key' a ha => ?_, fun n g hg hk hlive => ?_,
    fun n hn => ?_, fun key' => ?_, fun n g hg => ?_, ?_⟩
  · rw [h.regs]
    exact hl.elem key' a ((h.mem_iff hl).mp ha).1
  · rw [h.elems_eq hl]
    exact (hl.sorted key').filter _
  · obtain ⟨hmem, hne⟩ := (h.mem_iff hl).mp ha
    rw [h.cancelled, mem_cons, not_or]
    exact ⟨hne, hl.live key' a hmem⟩
  · rw [h.regs] at hg
    rw [h.cancelled, mem_cons, not_or] at hlive
    obtain ⟨a, ha, hreg⟩ := hl.kept n g hg hk hlive.2
    exact ⟨a, (h.mem_iff hl).mpr ⟨ha, hreg ▸ hlive.1⟩, hreg⟩
  · rw [h.regs]
    rw [h.cancelled] at hn
    rcases mem_cons.mp hn with rfl | hn
    · exact hl.reg_lt h.mem
    · exact hl.cancelled_lt n hn
  · rw [h.nextId, h.regs]
    exact hl.nextId key'
  · rw [h.regs] at hg ⊢
    exact hl.handle n g hg
  · exact timed_of_key hl.timed h.other hlen h.numTimed

/-- A cancel call keeps the invariant. It is made when no callback runs. -/
theorem inv (hi : Inv s) (hstack : s.stack = []) : Inv s' := by
  have hrunning : ∀ c p, ¬ RunningIn s.stack c p := by
    intro c p hr
    rw [hstack] at hr
    obtain ⟨f, hf, -⟩ := hr
    cases hf
  refine ⟨h.lists hi.lists, ⟨fun n g hg hk => ?_, fun n g hg hk hlive => ?_,
    fun c p a ha hr => ?_, fun c p a ha hr => ?_⟩, ?_, ?_⟩
  · rw [h.regs] at hg
    rw [h.hits_eq]
    exact hi.onces.hits_le n g hg hk
  · rw [h.regs] at hg
    rw [h.cancelled, mem_cons, not_or] at hlive
    rw [h.hits_eq]
    refine (hi.onces.gone n g hg hk hlive.2).imp (fun hin => ?_) fun hone => hone
    obtain ⟨a, ha, hreg⟩ := hin
    exact ⟨a, (h.mem_iff hi.lists).mpr ⟨ha, hreg ▸ hlive.1⟩, hreg⟩
  · rw [h.stack] at hr
    exact absurd hr (hrunning c p)
  · rw [h.hits_eq]
    obtain ⟨q, hq⟩ := mem_iff_getElem?.mp
      ((h.mem_iff hi.lists).mp (mem_of_getElem? ha)).1
    exact hi.onces.waiting c q a hq (hrunning c q)
  · have hflag := hi.frames.flag
    refine ⟨?_, ?_, ?_, ?_, ?_⟩ <;> rw [h.stack, hstack]
    · exact Pairwise.nil
    · exact fun f hf => absurd hf not_mem_nil
    · intro c
      rw [h.flag, hflag c, hstack]
    · exact Pairwise.nil
    · exact fun f hf => absurd hf not_mem_nil
  · have hall : ∀ r, s.Returned r := by
      intro r f hf
      rw [hstack] at hf
      cases hf
    refine ⟨fun r ρ hρ _ hnested n g hg hk hlt hlive => ?_, fun r ρ hρ _ n g hg hk hlt hlive => ?_,
      ?_, ?_, ?_⟩
    · rw [h.raises] at hρ
      rw [h.regs] at hg
      rw [h.cancelled, mem_cons, not_or] at hlive
      rw [h.hits_eq]
      exact hi.done.once r ρ hρ (hall r) hnested n g hg hk hlt hlive.2
    · rw [h.raises] at hρ
      rw [h.regs] at hg
      unfold hitsIn
      rw [h.fired]
      exact hi.done.keep r ρ hρ (hall r) n g hg hk hlt hlive
    · rw [h.fired, h.raises]
      exact hi.done.raise_lt
    · rw [h.fired, h.regs]
      exact hi.done.since
    · rw [h.raises, h.regs]
      exact hi.done.regs_le

end

end Cancelled

/-- A cancel call keeps the invariant. -/
theorem Inv.remove_elem (hi : Inv s) (hstack : s.stack = []) (key : Key) (id : Int) :
    Inv (s.removeElem key id) ∧ (s.removeElem key id).stack = [] := by
  rcases remove_elem_cases s key id with ⟨-, heq⟩ | ⟨cb, -, h⟩
  · rw [heq]
    exact ⟨hi, hstack⟩
  · exact ⟨h.inv hi hstack, h.stack.trans hstack⟩

/-! ## Runs -/

/-- The invariant holds before the first registration. -/
theorem Inv.initial : Inv Pe.initial where
  lists := {
    elem := fun _ _ h => absurd h not_mem_nil
    sorted := fun _ => Pairwise.nil
    live := fun _ _ h => absurd h not_mem_nil
    kept := fun _ _ h => by cases h
    cancelled_lt := fun _ h => absurd h not_mem_nil
    nextId := fun _ => by
      show (1 : Int) = int (1 + 0)
      decide
    handle := fun _ _ h => by cases h
    timed := by decide }
  onces := {
    hits_le := fun _ _ h => by cases h
    gone := fun _ _ h => by cases h
    fired := fun _ _ _ h => by cases h
    waiting := fun _ _ _ h => by cases h }
  frames := {
    order := Pairwise.nil
    ok := fun _ h => absurd h not_mem_nil
    flag := fun _ => by simp [Pe.initial]
    alone := Pairwise.nil
    calling := fun _ h => absurd h not_mem_nil }
  done := {
    once := fun _ _ h => by cases h
    keep := fun _ _ h => by cases h
    raise_lt := fun _ h => absurd h not_mem_nil
    since := fun _ h => absurd h not_mem_nil
    regs_le := fun _ h => absurd h not_mem_nil }

/-- The invariant and that every raise on the stack waits for a callback. -/
def Inv.Ready (s : Pe) : Prop := Inv s ∧ Settled s

theorem Inv.ready_init : Inv.Ready ccdModuleInitConds := by
  have hall : Settled Pe.initial := fun f hf => absurd hf not_mem_nil
  obtain ⟨hi, hall⟩ := (appended Pe.initial (.keep, 2)).inv Inv.initial hall
  exact (appended _ (.keep, 1)).inv hi hall

/-- So does every step. -/
theorem Inv.ready_step {e : Event} (h : Inv.Ready s) (hstep : step s e = some s') :
    Inv.Ready s' := by
  obtain ⟨hi, hall⟩ := h
  cases e with
  | callOnCondition kind c =>
    simp only [step] at hstep
    split at hstep
    · cases kind with
      | once =>
        cases hstep
        exact (appended s (.once, c)).inv hi hall
      | keep =>
        cases hstep
        exact (appended s (.keep, c)).inv hi hall
    · cases hstep
  | cancel kind c handle =>
    have hremove : s.stack = [] ∧ s' = s.removeElem (kind, c) handle := by
      simp only [step] at hstep
      split at hstep
      next hguard =>
        refine ⟨hguard.2, ?_⟩
        cases kind <;> exact (Option.some.inj hstep).symm
      next => cases hstep
    obtain ⟨hstack, rfl⟩ := hremove
    obtain ⟨hi', hstack'⟩ := hi.remove_elem hstack (kind, c) handle
    refine ⟨hi', fun f hf => ?_⟩
    rw [hstack'] at hf
    cases hf
  | raise c =>
    simp only [step] at hstep
    split at hstep
    · exact hi.raise hall hstep
    · cases hstep
  | ret => exact hi.ret hall hstep

/-- Every run keeps the invariant. -/
theorem Inv.ready_run {es : List Event} (hrun : Run es s) : Inv.Ready s :=
  hrun.invariant (fun _ _ _ h hstep => Inv.ready_step h hstep) Inv.ready_init

/-! ## A raise and a return always go on -/

/-- A call within the list does not fail. -/
theorem call_is_some {i since : Nat} {rest : List Frame}
    (h : i < (s.lists key).elems.length) : (s.call key i since f rest).isSome := by
  unfold call
  rw [getElem?_eq_getElem h]
  rfl

/-- The walk over a kept list does not read outside it either. -/
theorem call_cblist_keep_is_some (s : Pe) (f : Frame) (rest : List Frame) :
    (s.callCblistKeep f rest).isSome := by
  unfold callCblistKeep
  simp only
  split
  next => rfl
  next hlen => exact call_is_some (pos_of_ne_zero hlen)

/-- A raise does not read outside a list. -/
theorem raise_is_some (s : Pe) (c : Nat) : (s.ccdRaiseCondition c).isSome := by
  unfold ccdRaiseCondition callCblistRemove
  simp only
  split
  next => exact call_cblist_keep_is_some ..
  next hlen =>
    refine call_is_some ?_
    rw [not_or] at hlen
    unfold setFlag
    simp only [update_self]
    omega

/-- The return of a callback does not either. -/
theorem ret_is_some (h : Inv.Ready s) (hstack : s.stack ≠ []) : s.callbackReturn.isSome := by
  obtain ⟨hi, hall⟩ := h
  obtain ⟨f, rest, hcons⟩ := exists_cons_of_ne_nil hstack
  have hmem : f ∈ s.stack := hcons ▸ mem_cons_self
  have hcalling := hall f hmem
  obtain ⟨ρ, -, -, -, -, hphase⟩ := hi.frames.ok f hmem
  unfold callbackReturn
  rw [hcons]
  obtain ⟨i, len, since, hf⟩ | ⟨i, len, since, hf⟩ := hcalling.cases <;>
    simp only [hf] at hphase ⊢
  · obtain ⟨⟨hlt, hlen, -⟩, -⟩ := hphase
    split
    next => exact call_cblist_keep_is_some ..
    next => exact call_is_some (by omega)
  · obtain ⟨-, ⟨hlt, hlen, -⟩, -⟩ := hphase
    split
    next hnext => exact call_is_some (by omega)
    next => rfl

/-! ## Handles -/

/-- The callbacks registered on a list before two of them are not equally many. -/
theorem count_take_lt {n m : Nat} (hg : s.regs[n]? = some g) (h : n < m) :
    (s.regs.take n).countP (·.key = g.key) < (s.regs.take m).countP (·.key = g.key) := by
  have hsucc : (s.regs.take (n + 1)).countP (·.key = g.key) =
      (s.regs.take n).countP (·.key = g.key) + 1 := by
    rw [take_add_one, hg, Option.toList_some, countP_append]
    simp
  have hle : (s.regs.take (n + 1)).countP (·.key = g.key) ≤
      (s.regs.take m).countP (·.key = g.key) :=
    (take_sublist_take_left h).countP_le
  omega

/-- As long as the handles of a list do not wrap, a handle names one callback of it. -/
theorem Lists.handle_inj (hl : Lists s) (hfew : s.regs.countP (·.key = g.key) ≤ 2 ^ 32) {n m : Nat}
    (hn : s.regs[n]? = some g) (hm : s.regs[m]? = some g) : n = m := by
  have hcount : ∀ {k}, s.regs[k]? = some g → (s.regs.take k).countP (·.key = g.key) < 2 ^ 32 := by
    intro k hk
    have hlt := (List.getElem?_eq_some_iff.mp hk).1
    have := count_take_lt hk hlt
    rw [take_length] at this
    omega
  have heq := (hl.handle n g hn).symm.trans (hl.handle m g hm)
  have hn' := hcount hn
  have hm' := hcount hm
  rw [int_eq, int_eq] at heq
  rcases lt_trichotomy n m with hlt | heq' | hgt
  · have := count_take_lt hn hlt
    omega
  · exact heq'
  · have := count_take_lt hm hgt
    omega

/-- What a cancel call does with a handle that was returned on this PE. -/
theorem Inv.cancel_handle (hi : Inv s) (hfew : s.regs.countP (·.key = key) ≤ 2 ^ 32)
    (hstack : s.stack = []) {handle : Int} (hn : s.regs[n]? = some ⟨key, handle⟩) :
    (∀ key', ((s.removeElem key handle).lists key').elems =
      (s.lists key').elems.filter (·.reg ≠ n)) ∧
    (key.1 = .once → 0 < s.hits n → s.removeElem key handle = s) := by
  have hfind : ∀ {cb}, cb ∈ (s.lists key).elems → cb.id = handle → cb.reg = n := by
    intro cb hcb hid
    refine hi.lists.handle_inj hfew ?_ hn
    rw [hi.lists.elem key cb hcb, hid]
  rcases remove_elem_cases s key handle with ⟨hnone, heq⟩ | ⟨cb, hid, h⟩
  · refine ⟨fun key' => ?_, fun _ _ => heq⟩
    rw [heq, filter_eq_self.mpr]
    intro cb hcb
    refine decide_eq_true fun hreg => ?_
    have helem := hi.lists.elem key' cb hcb
    rw [hreg, hn] at helem
    obtain ⟨rfl, rfl⟩ : key = key' ∧ handle = cb.id := by
      simpa using Option.some.inj helem
    exact hnone cb hcb rfl
  · obtain rfl := hfind h.mem hid
    refine ⟨h.elems_eq hi.lists, fun hk hhits => ?_⟩
    obtain ⟨k, c⟩ := key
    obtain rfl : k = .once := hk
    obtain ⟨p, hp⟩ := mem_iff_getElem?.mp h.mem
    have hzero := hi.onces.waiting c p cb hp (by simp [RunningIn, hstack])
    omega

/-! ## The main result -/

/-- Condition callbacks fire as registered. A one-time callback fires at most once, and it has fired
once when it was not cancelled and a raise of its condition that was started after its registration,
while its list was not running, has returned. A kept callback has fired once in every raise that was
started after its registration and before its cancellation and has returned. If there were at most
`2 ^ 32` registrations on its list, a cancel call removes the callback of its handle and no other,
and does nothing if that has fired and is a one-time callback. No walk over a list fires a callback
that was registered during it. The counter of timed callbacks is right as long as it is an `int`. A
raise and the return of a callback always succeed. -/
theorem condition_callbacks_fire {es : List Event} (hrun : Run es s) :
    (∀ n c handle, s.regs[n]? = some ⟨(.once, c), handle⟩ → s.hits n ≤ 1 ∧
      (n ∉ s.cancelled → ∀ r ρ, s.raises[r]? = some ρ → ρ.cond = c → ρ.nested = false →
        n < ρ.regs → s.Returned r → s.hits n = 1)) ∧
    (∀ n c handle, s.regs[n]? = some ⟨(.keep, c), handle⟩ → ∀ r ρ, s.raises[r]? = some ρ →
      ρ.cond = c → n < ρ.regs → n ∉ ρ.cancelled → s.Returned r → s.hitsIn n r = 1) ∧
    (∀ n k c handle, s.regs[n]? = some ⟨(k, c), handle⟩ →
      s.regs.countP (·.key = (k, c)) ≤ 2 ^ 32 → ∀ s', step s (.cancel k c handle) = some s' →
        (∀ key, (s'.lists key).elems = (s.lists key).elems.filter (·.reg ≠ n)) ∧
        (k = .once → 0 < s.hits n → s' = s)) ∧
    (∀ x ∈ s.fired, x.reg < x.since) ∧
    (∀ c, (s.lists (.once, c)).flag = true ↔ ∃ f ∈ s.stack, f.cond = c ∧ f.IsRemoving) ∧
    (s.timedCallbacks < 2 ^ 31 → s.numTimed = s.timedCallbacks) ∧
    (∀ c < maxNumConds, (step s (.raise c)).isSome) ∧
    (s.stack ≠ [] → (step s .ret).isSome) := by
  have hready := Inv.ready_run hrun
  obtain ⟨hi, -⟩ := id hready
  refine ⟨fun n c handle hn => ⟨hi.onces.hits_le n _ hn rfl, ?_⟩, ?_, ?_,
    fun x hx => (hi.done.since x hx).1, hi.frames.flag, fun hfew => ?_, fun c hc => ?_,
    fun hstack => ret_is_some hready hstack⟩
  · intro hlive r ρ hρ hcond hnested hlt hr
    exact hi.done.once r ρ hρ hr hnested n _ hn (by rw [hcond]) hlt hlive
  · intro n c handle hn r ρ hρ hcond hlt hlive hr
    exact hi.done.keep r ρ hρ hr n _ hn (by rw [hcond]) hlt hlive
  · intro n k c handle hn hfew s' hstep
    simp only [step] at hstep
    split at hstep
    next hguard =>
      have hs' : s' = s.removeElem (k, c) handle := by
        cases k <;> exact (Option.some.inj hstep).symm
      rw [hs']
      exact hi.cancel_handle hfew hguard.2 hn
    next => cases hstep
  · rw [hi.lists.timed, int_natCast_of_lt hfew]
  · simp only [step, if_pos hc]
    exact raise_is_some s c

/-- A one-time callback that raises its own condition and a kept one, on a timed condition. -/
theorem callbacks_fire_in_nested_raise : ∃ s, Run [.callOnCondition .once 5,
      .callOnCondition .keep 5, .raise 5, .raise 5, .ret, .ret, .ret] s ∧
    s.hits 2 = 1 ∧ s.hitsIn 3 0 = 1 ∧ s.hitsIn 3 1 = 1 ∧ s.numTimed = 1 := by
  obtain ⟨s, hrun, h2, h3, hraises, hstack, hcancelled, htimed⟩ : ∃ s,
      Run [.callOnCondition .once 5,
        .callOnCondition .keep 5, .raise 5, .raise 5, .ret, .ret, .ret] s ∧
      s.regs[2]? = some ⟨(.once, 5), 1⟩ ∧ s.regs[3]? = some ⟨(.keep, 5), 1⟩ ∧
      s.raises = [⟨5, 4, [], false⟩, ⟨5, 4, [], true⟩] ∧ s.stack = [] ∧ s.cancelled = [] ∧
      s.timedCallbacks = 1 := Lib.Steps.exists_of_any (by decide)
  have hreturned : ∀ r, s.Returned r := by
    intro r f hf
    rw [hstack] at hf
    cases hf
  obtain ⟨honce, hkeep, -, -, -, hnum, -⟩ := condition_callbacks_fire hrun
  refine ⟨s, hrun, ?_, ?_, ?_, ?_⟩
  · exact (honce 2 5 1 h2).2 (by simp [hcancelled]) 0 ⟨5, 4, [], false⟩ (by simp [hraises]) rfl
      rfl (by decide) (hreturned 0)
  · exact hkeep 3 5 1 h3 0 ⟨5, 4, [], false⟩ (by simp [hraises]) rfl (by decide)
      not_mem_nil (hreturned 0)
  · exact hkeep 3 5 1 h3 1 ⟨5, 4, [], true⟩ (by simp [hraises]) rfl (by decide)
      not_mem_nil (hreturned 1)
  · rw [hnum (by rw [htimed]; decide), htimed]
    rfl

/-! ## Handles that wrap -/

/-- Registering `k` times on one list. -/
theorem register_many (s : Pe) (hc : c < maxNumConds) (k : Nat) :
    ∃ s' tail, Lib.Steps (fun s e s' => step s e = some s') s
        (List.replicate k (.callOnCondition .once c)) s' ∧
      s'.stack = s.stack ∧ s'.fired = s.fired ∧ s'.cancelled = s.cancelled ∧
      s'.regs = s.regs ++ tail ∧ tail.length = k ∧ ∀ g ∈ tail, g.key = (.once, c) := by
  induction k with
  | zero =>
    refine ⟨s, [], .nil s, rfl, rfl, rfl, (append_nil _).symm, rfl, fun g hg => ?_⟩
    cases hg
  | succ k ih =>
    obtain ⟨s₁, tail, hrun, hstack, hfired, hcancelled, hregs, hlen, hkeys⟩ := ih
    have h := appended s₁ (.once, c)
    have hstep : step s₁ (.callOnCondition .once c) = some (s₁.appendElem (.once, c)) := by
      simp only [step, if_pos hc]
      rfl
    refine ⟨_, tail ++ [⟨(.once, c), (s₁.lists (.once, c)).nextId⟩], ?_, h.stack.trans hstack,
      h.fired.trans hfired, h.cancelled.trans hcancelled, ?_, ?_, fun g hg => ?_⟩
    · rw [replicate_succ']
      exact hrun.append (.single hstep)
    · rw [h.regs, hregs, append_assoc]
    · rw [length_append, hlen, length_singleton]
    · rcases mem_append.mp hg with hg | hg
      · exact hkeys g hg
      · rw [mem_singleton.mp hg]

/-- The callback of a handle has fired. After `2 ^ 32` more registrations on the condition the
handle has been returned again, and a cancel call with it removes a callback that has not fired. -/
theorem stale_handle_cancels_another : ∃ es s s' n handle, Run es s ∧
    s.regs[n]? = some ⟨(.once, 22), handle⟩ ∧ s.hits n = 1 ∧
    step s (.cancel .once 22 handle) = some s' ∧
    ∃ cb ∈ (s.lists (.once, 22)).elems, cb.reg ≠ n ∧ cb ∉ (s'.lists (.once, 22)).elems := by
  obtain ⟨s₀, hrun₀, hregs₀, hstack₀, hcancelled₀, hfired₀⟩ : ∃ s,
      Run [.callOnCondition .once 22, .raise 22, .ret] s ∧
      s.regs = [⟨(.keep, 2), 1⟩, ⟨(.keep, 1), 1⟩, ⟨(.once, 22), 1⟩] ∧ s.stack = [] ∧
      s.cancelled = [] ∧ s.fired = [⟨2, 0, 3⟩] := Lib.Steps.exists_of_any (by decide)
  obtain ⟨k, hk⟩ : ∃ k, k = 2 ^ 32 - 1 := ⟨_, rfl⟩
  obtain ⟨s, tail, hmany, hstack, hfired, hcancelled, hregs, hlen, hkeys⟩ :=
    register_many s₀ (show 22 < maxNumConds by decide) (k + 1)
  rw [hstack₀] at hstack
  rw [hfired₀] at hfired
  rw [hcancelled₀] at hcancelled
  have hrun : Run _ s := hrun₀.append hmany
  have hi := (Inv.ready_run hrun).1
  have hfirst : s.regs[2]? = some ⟨(.once, 22), 1⟩ := by
    rw [hregs, hregs₀]
    rfl
  have hhits : s.hits 2 = 1 := by
    unfold hits
    rw [hfired]
    rfl
  -- The last of the registrations has got the handle of the first one.
  obtain ⟨g, hg⟩ : ∃ g, tail[k]? = some g :=
    ⟨_, getElem?_eq_getElem (by omega)⟩
  have hlast : s.regs[3 + k]? = some g := by
    rw [hregs, hregs₀, getElem?_append_right (by simp)]
    simpa using hg
  have hgkey := hkeys g (mem_of_getElem? hg)
  have hcount : (s.regs.take (3 + k)).countP (·.key = g.key) = 1 + k := by
    have htake : s.regs.take (3 + k) = s₀.regs ++ tail.take k := by
      have hthree : s₀.regs.length = 3 := by
        rw [hregs₀]
        rfl
      rw [hregs, ← hthree, take_length_add_append]
    have htail : (tail.take k).countP (·.key = g.key) = (tail.take k).length := by
      refine countP_eq_length.mpr fun x hx => ?_
      rw [hkeys x (mem_of_mem_take hx), hgkey]
      exact decide_eq_true rfl
    rw [htake, countP_append, htail, length_take, hlen, hregs₀, hgkey]
    have hmin : min k (k + 1) = k := by omega
    rw [hmin]
    rfl
  have hhandle : g.handle = 1 := by
    rw [hi.lists.handle _ g hlast, hcount, hk]
    decide
  obtain ⟨cb, hcb, hreg⟩ : ∃ cb ∈ (s.lists g.key).elems, cb.reg = 3 + k := by
    refine (hi.onces.gone _ g hlast (by rw [hgkey]) (by simp [hcancelled])).resolve_right ?_
    have hne : ¬ 2 = 3 + k := by omega
    unfold hits
    rw [hfired]
    simp [hne]
  have hid : cb.id = 1 := by
    have helem := hi.lists.elem _ cb hcb
    rw [hreg, hlast] at helem
    rw [← hhandle, Option.some.inj helem]
  rw [hgkey] at hcb
  rcases remove_elem_cases s (.once, 22) 1 with ⟨hnone, -⟩ | ⟨cb', -, h⟩
  · exact absurd hid (hnone cb hcb)
  · refine ⟨_, s, s.removeElem (.once, 22) 1, 2, 1, hrun, hfirst, hhits, ?_, cb', h.mem,
      fun heq => ?_, fun hmem => ?_⟩
    · simp only [step, hstack]
      rfl
    · obtain ⟨p, hp⟩ := mem_iff_getElem?.mp h.mem
      have hzero := hi.onces.waiting 22 p cb' hp (by simp [RunningIn, hstack])
      rw [heq, hhits] at hzero
      cases hzero
    · exact ((h.mem_iff hi.lists).mp hmem).2 rfl

end Reconverse.Conds
