import Reconverse.Conds.Model

/-!
# Condition callbacks fire as registered

The invariant of the lists has three parts. `Lists` says what is in the lists: the callbacks that
were registered and not cancelled, in the order of their registration, with the handles that were
returned. `Onces` and `Frames` say how far the raises that run have come: of a one-time list that
is being walked exactly the elements from the current one on have fired, and of a kept list
exactly the elements up to the current one. `Done` says what a raise that has returned has fired.
-/

namespace Reconverse.Conds

open Function (update update_self update_of_ne)
open Lib.CInt List

variable {i len since c r : Nat} {f f' : Frame} {cb : CcdCondCallback} {x : Firing} {key : Key}
  {rest : List Frame}

/-! ## Frames -/

namespace Frame

/-- The element at position `p` of the one-time list has fired in this raise. -/
def InWindow (f : Frame) (p : Nat) : Prop :=
  match f.phase with
  | .removing i len _ => i ≤ p ∧ p < len
  | _ => False

/-- The raise walks the one-time list. -/
def IsRemoving (f : Frame) : Prop :=
  match f.phase with
  | .removing .. => True
  | _ => False

/-- A callback of this raise is running. -/
def IsCalling (f : Frame) : Prop :=
  match f.phase with
  | .removing .. | .keeping .. => True
  | _ => False

/-- A frame in a callback is in the loop over a one-time list or over a kept list. -/
theorem IsCalling.cases (h : f.IsCalling) :
    (∃ i len since, f.phase = .removing i len since) ∨
      ∃ i len since, f.phase = .keeping i len since := by
  unfold IsCalling at h
  split at h
  · exact .inl ⟨_, _, _, by assumption⟩
  · exact .inr ⟨_, _, _, by assumption⟩
  · exact h.elim

theorem InWindow.isRemoving {p : Nat} (h : f.InWindow p) : f.IsRemoving := by
  unfold InWindow at h
  unfold IsRemoving
  split at h <;> simp_all

end Frame

/-- A raise on the stack walks the one-time list of `c` and has fired position `p`. -/
def RunningIn (stack : List Frame) (c p : Nat) : Prop :=
  ∃ f ∈ stack, f.cond = c ∧ f.InWindow p

theorem running_cons {c p : Nat} :
    RunningIn (f :: rest) c p ↔ (f.cond = c ∧ f.InWindow p) ∨ RunningIn rest c p := by
  simp [RunningIn]

/-! ## The invariant -/

variable {s s' : Pe} {k : Kind} {d : Int}

/-- What the lists hold. -/
structure Lists (s : Pe) : Prop where
  elem : ∀ key, ∀ cb ∈ (s.lists key).elems, s.regs[cb.reg]? = some ⟨key, cb.id⟩
  sorted : ∀ key, (s.lists key).elems.Pairwise fun a b => a.reg < b.reg
  live : ∀ key, ∀ cb ∈ (s.lists key).elems, cb.reg ∉ s.cancelled
  kept : ∀ n g, s.regs[n]? = some g → g.key.1 = .keep → n ∉ s.cancelled →
    ∃ cb ∈ (s.lists g.key).elems, cb.reg = n
  cancelled_lt : ∀ n ∈ s.cancelled, n < s.regs.length
  nextId : ∀ key, (s.lists key).nextId = int (1 + s.regs.countP (·.key = key))
  handle : ∀ n g, s.regs[n]? = some g →
    g.handle = int (1 + (s.regs.take n).countP (·.key = g.key))
  timed : s.numTimed = int s.timedCallbacks

/-- How often the one-time callbacks have fired. -/
structure Onces (s : Pe) : Prop where
  hits_le : ∀ n g, s.regs[n]? = some g → g.key.1 = .once → s.hits n ≤ 1
  gone : ∀ n g, s.regs[n]? = some g → g.key.1 = .once → n ∉ s.cancelled →
    (∃ cb ∈ (s.lists g.key).elems, cb.reg = n) ∨ s.hits n = 1
  fired : ∀ c p cb, (s.lists (.once, c)).elems[p]? = some cb → RunningIn s.stack c p →
    s.hits cb.reg = 1
  waiting : ∀ c p cb, (s.lists (.once, c)).elems[p]? = some cb → ¬ RunningIn s.stack c p →
    s.hits cb.reg = 0

/-- The one-time callbacks that the raise has to fire have fired. -/
def OnceDone (s : Pe) (ρ : Raise) : Prop :=
  ρ.nested = false → ∀ n g, s.regs[n]? = some g → g.key = (.once, ρ.cond) → n < ρ.regs →
    n ∉ s.cancelled → s.hits n = 1

/-- The kept callbacks that the raise has to fire have fired in it. -/
def KeepDone (s : Pe) (r : Nat) (ρ : Raise) : Prop :=
  ∀ n g, s.regs[n]? = some g → g.key = (.keep, ρ.cond) → n < ρ.regs → n ∉ ρ.cancelled →
    s.hitsIn n r = 1

/-- The raise has not fired a kept callback. -/
def NoKeep (s : Pe) (r : Nat) : Prop :=
  ∀ n g, s.regs[n]? = some g → g.key.1 = .keep → s.hitsIn n r = 0

/-- The first `len` elements of the list are those that were registered when its walk began. -/
def Walks (s : Pe) (key : Key) (i len since : Nat) (ρ : Raise) : Prop :=
  i < len ∧ len ≤ (s.lists key).elems.length ∧ ρ.regs ≤ since ∧ since ≤ s.regs.length ∧
    ∀ p cb, (s.lists key).elems[p]? = some cb → (cb.reg < since ↔ p < len)

/-- What holds of a raise that runs, at each point of it. -/
def FrameOk (s : Pe) (f : Frame) (ρ : Raise) : Prop :=
  ρ.cond = f.cond ∧ ρ.cancelled = s.cancelled ∧ ρ.regs ≤ s.regs.length ∧
  match f.phase with
  | .atOnce => ρ.nested = (s.lists (.once, f.cond)).flag ∧ NoKeep s f.raise
  | .removing i len since => Walks s (.once, f.cond) i len since ρ ∧ NoKeep s f.raise
  | .atKeep => OnceDone s ρ ∧ NoKeep s f.raise
  | .keeping i len since => OnceDone s ρ ∧ Walks s (.keep, f.cond) i len since ρ ∧
      ∀ p cb, (s.lists (.keep, f.cond)).elems[p]? = some cb →
        s.hitsIn cb.reg f.raise = if p ≤ i then 1 else 0

/-- The raises that run. -/
structure Frames (s : Pe) : Prop where
  order : s.stack.Pairwise fun f g => g.raise < f.raise
  ok : ∀ f ∈ s.stack, ∃ ρ, s.raises[f.raise]? = some ρ ∧ FrameOk s f ρ
  flag : ∀ c, (s.lists (.once, c)).flag = true ↔ ∃ f ∈ s.stack, f.cond = c ∧ f.IsRemoving
  alone : s.stack.Pairwise fun f g => f.IsRemoving → g.IsRemoving → f.cond ≠ g.cond
  calling : ∀ f ∈ s.stack.tail, f.IsCalling

/-- The raises that have returned, and what was fired. -/
structure Done (s : Pe) : Prop where
  once : ∀ r ρ, s.raises[r]? = some ρ → s.Returned r → OnceDone s ρ
  keep : ∀ r ρ, s.raises[r]? = some ρ → s.Returned r → KeepDone s r ρ
  raise_lt : ∀ x ∈ s.fired, x.raise < s.raises.length
  since : ∀ x ∈ s.fired, x.reg < x.since ∧ x.since ≤ s.regs.length
  regs_le : ∀ ρ ∈ s.raises, ρ.regs ≤ s.regs.length

/-- The whole invariant. -/
structure Inv (s : Pe) : Prop where
  lists : Lists s
  onces : Onces s
  frames : Frames s
  done : Done s

/-! ## Lists -/

namespace Lists

theorem reg_lt (h : Lists s) (hcb : cb ∈ (s.lists key).elems) : cb.reg < s.regs.length := by
  obtain ⟨hlt, -⟩ := List.getElem?_eq_some_iff.mp (h.elem key cb hcb)
  exact hlt

/-- A callback is in one place of its list. -/
theorem pos_inj (h : Lists s) {p q : Nat} {a b : CcdCondCallback}
    (ha : (s.lists key).elems[p]? = some a) (hb : (s.lists key).elems[q]? = some b)
    (heq : a.reg = b.reg) : p = q := by
  obtain ⟨hp, rfl⟩ := List.getElem?_eq_some_iff.mp ha
  obtain ⟨hq, rfl⟩ := List.getElem?_eq_some_iff.mp hb
  have hsorted := pairwise_iff_getElem.mp (h.sorted key)
  rcases lt_trichotomy p q with hlt | rfl | hgt
  · exact absurd heq (hsorted p q hp hq hlt).ne
  · rfl
  · exact absurd heq (hsorted q p hq hp hgt).ne'

/-- The lists are determined by what they hold. -/
theorem congr (h : Lists s) (helems : ∀ key, (s'.lists key).elems = (s.lists key).elems)
    (hnext : ∀ key, (s'.lists key).nextId = (s.lists key).nextId) (hregs : s'.regs = s.regs)
    (hcancelled : s'.cancelled = s.cancelled) (htimed : s'.numTimed = s.numTimed) :
    Lists s' where
  elem key := by rw [helems, hregs]; exact h.elem key
  sorted key := by rw [helems]; exact h.sorted key
  live key := by rw [helems, hcancelled]; exact h.live key
  kept n g := by rw [helems, hregs, hcancelled]; exact h.kept n g
  cancelled_lt := by rw [hregs, hcancelled]; exact h.cancelled_lt
  nextId key := by rw [hnext, hregs]; exact h.nextId key
  handle n g := by rw [hregs]; exact h.handle n g
  timed := by
    rw [htimed, h.timed]
    simp only [Pe.timedCallbacks, helems]

end Lists

theorem mem_timed (c : Nat) :
    c ∈ Finset.Ico ccdPeriodicFirst ccdPeriodicLast ↔ isTimed c = true := by
  simp [isTimed]

/-- The count of timed callbacks when one list changes its length. -/
theorem timed_callbacks_of_key
    (hsame : ∀ key, key ≠ (k, c) → (s'.lists key).elems = (s.lists key).elems)
    (hlen : ((s'.lists (k, c)).elems.length : Int) = (s.lists (k, c)).elems.length + d) :
    (s'.timedCallbacks : Int) = s.timedCallbacks + if isTimed c then d else 0 := by
  have hother : ∀ c', c' ≠ c → ∀ k', (s'.lists (k', c')).elems = (s.lists (k', c')).elems :=
    fun c' hc k' => hsame _ fun heq => hc (congrArg Prod.snd heq)
  unfold Pe.timedCallbacks
  by_cases ht : isTimed c = true
  · have hmem := (mem_timed c).mpr ht
    have hrest : ∑ c' ∈ (Finset.Ico ccdPeriodicFirst ccdPeriodicLast).erase c,
        ((s'.lists (.once, c')).elems.length + (s'.lists (.keep, c')).elems.length) =
        ∑ c' ∈ (Finset.Ico ccdPeriodicFirst ccdPeriodicLast).erase c,
        ((s.lists (.once, c')).elems.length + (s.lists (.keep, c')).elems.length) := by
      refine Finset.sum_congr rfl fun c' hc' => ?_
      rw [hother c' (Finset.ne_of_mem_erase hc'), hother c' (Finset.ne_of_mem_erase hc')]
    rw [← Finset.add_sum_erase _ _ hmem, ← Finset.add_sum_erase _ _ hmem, if_pos ht]
    cases k with
    | once =>
      have hkeep := congrArg length (hsame (.keep, c) (by simp))
      omega
    | keep =>
      have honce := congrArg length (hsame (.once, c) (by simp))
      omega
  · rw [if_neg ht, Int.add_zero, Nat.cast_inj]
    refine Finset.sum_congr rfl fun c' hc' => ?_
    have hc : c' ≠ c := fun heq => ht (heq ▸ (mem_timed c').mp hc')
    rw [hother c' hc, hother c' hc]

/-- The counter follows the lists. -/
theorem timed_of_key (h : s.numTimed = int s.timedCallbacks)
    (hsame : ∀ key, key ≠ (k, c) → (s'.lists key).elems = (s.lists key).elems)
    (hlen : ((s'.lists (k, c)).elems.length : Int) = (s.lists (k, c)).elems.length + d)
    (hnum : s'.numTimed = (s.addTimed c d).numTimed) : s'.numTimed = int s'.timedCallbacks := by
  rw [timed_callbacks_of_key hsame hlen, hnum]
  unfold Pe.addTimed
  split
  · rw [h, int_int_add]
  · exact h

/-! ## Firings -/

variable {new : List Firing} {ρ : Raise}

theorem hits_append (h : s'.fired = s.fired ++ new) (n : Nat) :
    s'.hits n = s.hits n + new.countP (·.reg = n) := by
  unfold Pe.hits
  rw [h, countP_append]

theorem hits_in_append (h : s'.fired = s.fired ++ new) (n r : Nat) :
    s'.hitsIn n r = s.hitsIn n r + new.countP fun x => x.reg = n ∧ x.raise = r := by
  unfold Pe.hitsIn
  rw [h, countP_append]

/-- A raise that was not the one that fired has fired what it had fired. -/
theorem hits_in_of_ne (h : s'.fired = s.fired ++ new)
    (hr : ∀ x ∈ new, x.raise ≠ r) (n : Nat) : s'.hitsIn n r = s.hitsIn n r := by
  rw [hits_in_append h, countP_eq_zero.mpr, add_zero]
  intro x hx
  simp only [decide_eq_true_eq, not_and]
  exact fun _ => hr x hx

/-! ## The innermost raise moves on -/

/-- The innermost raise goes from `g` to `f` and fires the callbacks `new`. -/
structure Moves (s s' : Pe) (g f : Frame) (rest : List Frame) (new : List Firing) : Prop where
  stack : s.stack = g :: rest
  stack_eq : s'.stack = f :: rest
  raise_eq : f.raise = g.raise
  cond_eq : f.cond = g.cond
  elems : ∀ key, (s'.lists key).elems = (s.lists key).elems
  nextId : ∀ key, (s'.lists key).nextId = (s.lists key).nextId
  regs : s'.regs = s.regs
  raises : s'.raises = s.raises
  cancelled : s'.cancelled = s.cancelled
  numTimed : s'.numTimed = s.numTimed
  fired : s'.fired = s.fired ++ new
  new_raise : ∀ x ∈ new, x.raise = f.raise

/-- A one-time callback that has fired has still fired once. -/
def Persist (s s' : Pe) : Prop :=
  ∀ n g, s.regs[n]? = some g → g.key.1 = .once → s.hits n = 1 → s'.hits n = 1

/-- What was fired stays fired. -/
theorem OnceDone.mono (h : OnceDone s ρ) (hregs : s'.regs = s.regs)
    (hcancelled : s'.cancelled = s.cancelled) (hp : Persist s s') : OnceDone s' ρ := by
  intro hnested n g hg hkey hlt hlive
  rw [hregs] at hg
  rw [hcancelled] at hlive
  exact hp n g hg (by rw [hkey]) (h hnested n g hg hkey hlt hlive)

/-- No kept callback was fired in the raise, as before. -/
theorem NoKeep.mono (h : NoKeep s r) (hregs : s'.regs = s.regs)
    (hhits : ∀ n, s'.hitsIn n r = s.hitsIn n r) : NoKeep s' r := by
  intro n g hg hkey
  rw [hregs] at hg
  rw [hhits]
  exact h n g hg hkey

/-- A walk over a list that is as before. -/
theorem Walks.mono (h : Walks s key i len since ρ)
    (helems : (s'.lists key).elems = (s.lists key).elems) (hregs : s'.regs = s.regs) :
    Walks s' key i len since ρ := by
  unfold Walks at h ⊢
  rw [helems, hregs]
  exact h

/-- A raise further out does not notice what the innermost one does. -/
theorem FrameOk.mono (h : FrameOk s f ρ) (hcalling : f.IsCalling) (honces : f.IsRemoving →
      (s'.lists (.once, f.cond)).elems = (s.lists (.once, f.cond)).elems)
    (hkeeps : (s'.lists (.keep, f.cond)).elems = (s.lists (.keep, f.cond)).elems)
    (hregs : s'.regs = s.regs) (hcancelled : s'.cancelled = s.cancelled) (hp : Persist s s')
    (hhits : ∀ n, s'.hitsIn n f.raise = s.hitsIn n f.raise) : FrameOk s' f ρ := by
  obtain ⟨hcond, hcan, hle, hphase⟩ := h
  refine ⟨hcond, hcan.trans hcancelled.symm, hregs ▸ hle, ?_⟩
  obtain ⟨i, len, since, hf⟩ | ⟨i, len, since, hf⟩ := hcalling.cases <;> rw [hf] at hphase ⊢
  · have hremoving : f.IsRemoving := by simp [Frame.IsRemoving, hf]
    exact ⟨hphase.1.mono (honces hremoving) hregs, hphase.2.mono hregs hhits⟩
  · obtain ⟨honce, hwalks, hkept⟩ := hphase
    refine ⟨honce.mono hregs hcancelled hp, hwalks.mono hkeeps hregs, fun p cb hcb => ?_⟩
    rw [hkeeps] at hcb
    rw [hhits]
    exact hkept p cb hcb

section Moves

variable {g f : Frame} {rest : List Frame} {new : List Firing}

/-- The outer raises have other numbers than the innermost one. -/
theorem Frames.rest_ne (h : Frames s) (hstack : s.stack = g :: rest)
    (hf : f ∈ rest) : f.raise ≠ g.raise := by
  have horder := h.order
  rw [hstack, pairwise_cons] at horder
  exact (horder.1 f hf).ne

/-- Below the top all frames wait for a callback. -/
theorem Frames.rest_calling (h : Frames s) (hstack : s.stack = g :: rest)
    (hf : f ∈ rest) : f.IsCalling := by
  refine h.calling f ?_
  rw [hstack]
  exact hf

/-- What holds of the raises when the innermost one goes from `g` to `f`. -/
theorem Inv.frames_done (hi : Inv s) (hstack : s.stack = g :: rest) (hstack' : s'.stack = f :: rest)
    (hraise : f.raise = g.raise) (hregs : s'.regs = s.regs) (hraises : s'.raises = s.raises)
    (hcan : s'.cancelled = s.cancelled) (hfired : s'.fired = s.fired ++ new)
    (hnew : ∀ x ∈ new, x.raise = f.raise) (hp : Persist s s') (honces : ∀ h ∈ rest, h.IsRemoving →
      (s'.lists (.once, h.cond)).elems = (s.lists (.once, h.cond)).elems)
    (hkeeps : ∀ c, (s'.lists (.keep, c)).elems = (s.lists (.keep, c)).elems)
    (hframe : ∀ ρ, s.raises[g.raise]? = some ρ → FrameOk s g ρ → FrameOk s' f ρ)
    (hflag : ∀ c, (s'.lists (.once, c)).flag = true ↔ ∃ h ∈ f :: rest, h.cond = c ∧ h.IsRemoving)
    (halone : ∀ h ∈ rest, f.IsRemoving → h.IsRemoving → f.cond ≠ h.cond)
    (hsince : ∀ x ∈ new, x.reg < x.since ∧ x.since ≤ s.regs.length) : Frames s' ∧ Done s' := by
  have hother : ∀ {r}, r ≠ g.raise → ∀ n, s'.hitsIn n r = s.hitsIn n r := by
    intro r hr n
    refine hits_in_of_ne hfired (fun x hx heq => hr ?_) n
    rw [← heq, hnew x hx, hraise]
  have hreturned (r : Nat) : s'.Returned r ↔ s.Returned r := by
    unfold Pe.Returned
    rw [hstack, hstack', forall_mem_cons, forall_mem_cons, hraise]
  constructor
  · have horder := hi.frames.order
    have hpair := hi.frames.alone
    rw [hstack, pairwise_cons] at horder hpair
    refine ⟨?_, ?_, by rw [hstack']; exact hflag, ?_, ?_⟩
    · rw [hstack', pairwise_cons, hraise]
      exact horder
    · intro h hh
      rw [hstack'] at hh
      rw [hraises]
      rcases mem_cons.mp hh with rfl | hrest
      · obtain ⟨ρ, hρ, hok⟩ := hi.frames.ok g (hstack ▸ mem_cons_self)
        exact ⟨ρ, hraise ▸ hρ, hframe ρ hρ hok⟩
      · obtain ⟨ρ, hρ, hok⟩ := hi.frames.ok h (hstack ▸ mem_cons_of_mem _ hrest)
        exact ⟨ρ, hρ, hok.mono (hi.frames.rest_calling hstack hrest) (honces h hrest)
          (hkeeps _) hregs hcan hp (hother (hi.frames.rest_ne hstack hrest))⟩
    · rw [hstack', pairwise_cons]
      exact ⟨halone, hpair.2⟩
    · intro h hh
      rw [hstack'] at hh
      exact hi.frames.rest_calling hstack hh
  · refine ⟨fun r ρ hρ hr => ?_, fun r ρ hρ hr => ?_, fun x hx => ?_, fun x hx => ?_, ?_⟩
    · rw [hraises] at hρ
      exact (hi.done.once r ρ hρ ((hreturned r).mp hr)).mono hregs hcan hp
    · rw [hraises] at hρ
      have hr' := (hreturned r).mp hr
      have hne : r ≠ g.raise := fun heq => hr' g (hstack ▸ mem_cons_self) heq.symm
      intro n x hx hkey hlt hlive
      rw [hother hne]
      exact hi.done.keep r ρ hρ hr' n x (hregs ▸ hx) hkey hlt hlive
    · rw [hraises]
      rw [hfired] at hx
      rcases mem_append.mp hx with hx | hx
      · exact hi.done.raise_lt x hx
      · obtain ⟨ρ, hρ, -⟩ := hi.frames.ok g (hstack ▸ mem_cons_self)
        rw [hnew x hx, hraise]
        exact (List.getElem?_eq_some_iff.mp hρ).1
    · rw [hregs]
      rw [hfired] at hx
      rcases mem_append.mp hx with hx | hx
      · exact hi.done.since x hx
      · exact hsince x hx
    · rw [hraises, hregs]
      exact hi.done.regs_le

/-- The innermost raise moves on: it is left to show what holds of it and of the one-time
callbacks. -/
theorem Inv.move (hi : Inv s) (hm : Moves s s' g f rest new) (hp : Persist s s')
    (hframe : ∀ ρ, s.raises[g.raise]? = some ρ → FrameOk s g ρ → FrameOk s' f ρ) (honces : Onces s')
    (hflag : ∀ c, (s'.lists (.once, c)).flag = true ↔ ∃ h ∈ f :: rest, h.cond = c ∧ h.IsRemoving)
    (halone : ∀ h ∈ rest, f.IsRemoving → h.IsRemoving → f.cond ≠ h.cond)
    (hsince : ∀ x ∈ new, x.reg < x.since ∧ x.since ≤ s.regs.length) : Inv s' := by
  obtain ⟨hframes, hdone⟩ := hi.frames_done hm.stack hm.stack_eq hm.raise_eq hm.regs hm.raises
    hm.cancelled hm.fired hm.new_raise hp (fun _ _ _ => hm.elems _) (fun _ => hm.elems _) hframe
    hflag halone hsince
  exact ⟨hi.lists.congr hm.elems hm.nextId hm.regs hm.cancelled hm.numTimed, honces, hframes, hdone⟩

end Moves

/-! ## The one-time callbacks -/

namespace Onces

/-- Nothing happens to the one-time callbacks. -/
theorem congr (h : Onces s) (hl : Lists s)
    (helems : ∀ key, (s'.lists key).elems = (s.lists key).elems)
    (hregs : s'.regs = s.regs) (hcancelled : s'.cancelled = s.cancelled)
    (hhits : ∀ n g, s.regs[n]? = some g → g.key.1 = .once → s'.hits n = s.hits n)
    (hrun : ∀ c p, RunningIn s'.stack c p ↔ RunningIn s.stack c p) : Onces s' where
  hits_le n g hg hkey := by
    rw [hregs] at hg
    rw [hhits n g hg hkey]
    exact h.hits_le n g hg hkey
  gone n g hg hkey hlive := by
    rw [hregs] at hg
    rw [hcancelled] at hlive
    rw [helems, hhits n g hg hkey]
    exact h.gone n g hg hkey hlive
  fired c p cb hcb hr := by
    rw [helems] at hcb
    rw [hhits cb.reg _ (hl.elem _ cb (mem_of_getElem? hcb)) rfl]
    exact h.fired c p cb hcb ((hrun c p).mp hr)
  waiting c p cb hcb hr := by
    rw [helems] at hcb
    rw [hhits cb.reg _ (hl.elem _ cb (mem_of_getElem? hcb)) rfl]
    exact h.waiting c p cb hcb (mt (hrun c p).mpr hr)

/-- The element at `p₀` of the one-time list of `c₀` fires. -/
theorem fire (h : Onces s) (hl : Lists s) {c₀ p₀ : Nat} {cb₀ : CcdCondCallback}
    (hcb₀ : (s.lists (.once, c₀)).elems[p₀]? = some cb₀) (hx : x.reg = cb₀.reg)
    (hnot : ¬ RunningIn s.stack c₀ p₀) (helems : ∀ key, (s'.lists key).elems = (s.lists key).elems)
    (hregs : s'.regs = s.regs) (hcancelled : s'.cancelled = s.cancelled)
    (hfired : s'.fired = s.fired ++ [x])
    (hrun : ∀ c p, RunningIn s'.stack c p ↔ RunningIn s.stack c p ∨ (c = c₀ ∧ p = p₀)) :
    Onces s' ∧ Persist s s' := by
  have hzero := h.waiting c₀ p₀ cb₀ hcb₀ hnot
  have hself : s'.hits cb₀.reg = 1 := by
    rw [hits_append hfired, hzero]
    simp [hx]
  have hother : ∀ n, n ≠ cb₀.reg → s'.hits n = s.hits n := by
    intro n hn
    rw [hits_append hfired]
    simp [hx, hn.symm]
  have hreg₀ := hl.elem _ cb₀ (mem_of_getElem? hcb₀)
  -- An element of a one-time list is the one that fires only at its place.
  have hplace : ∀ c p cb, (s.lists (.once, c)).elems[p]? = some cb → cb.reg = cb₀.reg →
      c = c₀ ∧ p = p₀ := by
    intro c p cb hcb heq
    have hreg := hl.elem _ cb (mem_of_getElem? hcb)
    rw [heq, hreg₀] at hreg
    obtain rfl : c₀ = c := congrArg (fun g : Registration => g.key.2) (Option.some.inj hreg)
    exact ⟨rfl, hl.pos_inj hcb hcb₀ heq⟩
  refine ⟨⟨fun n g hg hkey => ?_, fun n g hg hkey hlive => ?_, fun c p cb hcb hr => ?_,
    fun c p cb hcb hr => ?_⟩, fun n g hg hkey hone => ?_⟩
  · by_cases hn : n = cb₀.reg
    · rw [hn, hself]
    · rw [hother n hn]
      exact h.hits_le n g (hregs ▸ hg) hkey
  · by_cases hn : n = cb₀.reg
    · exact .inr (by rw [hn, hself])
    · rw [hother n hn, helems]
      exact h.gone n g (hregs ▸ hg) hkey (hcancelled ▸ hlive)
  · rw [helems] at hcb
    by_cases hn : cb.reg = cb₀.reg
    · rw [hn, hself]
    · rw [hother _ hn]
      refine h.fired c p cb hcb ?_
      rcases (hrun c p).mp hr with hr | ⟨rfl, rfl⟩
      · exact hr
      · rw [hcb₀] at hcb
        exact absurd (congrArg _ (Option.some.inj hcb).symm) hn
  · rw [helems] at hcb
    have hr' := mt (hrun c p).mpr hr
    rw [not_or] at hr'
    rw [hother _ fun hn => hr'.2 (hplace c p cb hcb hn)]
    exact h.waiting c p cb hcb hr'.1
  · by_cases hn : n = cb₀.reg
    · rw [hn, hself]
    · rw [hother n hn]
      exact hone

end Onces

/-- A callback of one kind is no registration of the other. -/
theorem Lists.reg_ne (hl : Lists s) {kind : Kind} {n : Nat} {g : Registration}
    (hcb : cb ∈ (s.lists (kind, c)).elems) (hg : s.regs[n]? = some g) (hkey : g.key.1 ≠ kind) :
    cb.reg ≠ n := by
  rintro rfl
  obtain rfl := Option.mem_unique hg (hl.elem _ cb hcb)
  exact hkey rfl

theorem Persist.of_eq (h : ∀ n g, s.regs[n]? = some g → g.key.1 = .once → s'.hits n = s.hits n) :
    Persist s s' := by
  intro n g hg hkey hone
  rw [h n g hg hkey]
  exact hone

/-! ## The points of a raise -/

/-- A call fires the callback at its place. -/
theorem call_eq_some {i since : Nat}
    (h : s.call key i since f rest = some s') : ∃ cb, (s.lists key).elems[i]? = some cb ∧
      s' = { s with stack := f :: rest, fired := s.fired ++ [⟨cb.reg, f.raise, since⟩] } := by
  obtain ⟨cb, hcb, hs'⟩ := Option.bind_eq_some_iff.mp h
  exact ⟨cb, hcb, (Option.some.inj hs').symm⟩

/-- Firing one callback in a raise. -/
theorem hits_in_fire (hfired : s'.fired = s.fired ++ [x]) (hr : x.raise = r) (n : Nat) :
    s'.hitsIn n r = s.hitsIn n r + if x.reg = n then 1 else 0 := by
  rw [hits_in_append hfired]
  simp [hr]

section Points

variable {f : Frame} {rest : List Frame} {ρ : Raise}

/-- The flag of a list is set while a walk over it is on the stack. -/
theorem Frames.flag_of_stack (h : Frames s) (hstack : s.stack = f :: rest) (c : Nat) :
    (s.lists (.once, c)).flag = true ↔ ∃ g ∈ f :: rest, g.cond = c ∧ g.IsRemoving := by
  rw [← hstack]
  exact h.flag c

/-- Only the innermost raise changes its phase, and it does not walk the one-time list before or
after that. -/
theorem flag_congr (hf : ¬ f.IsRemoving) (hf' : ¬ f'.IsRemoving) (c : Nat) :
    (∃ g ∈ f' :: rest, g.cond = c ∧ g.IsRemoving) ↔
      ∃ g ∈ f :: rest, g.cond = c ∧ g.IsRemoving := by
  simp only [mem_cons, exists_eq_or_imp, hf, hf', and_false, false_or]

/-- What is running, if the top is no walk over a one-time list. -/
theorem running_congr (hf : ¬ f.IsRemoving) (hf' : ¬ f'.IsRemoving) (c p : Nat) :
    RunningIn (f' :: rest) c p ↔ RunningIn (f :: rest) c p := by
  rw [running_cons, running_cons, or_iff_right, or_iff_right]
  · exact fun h => hf h.2.isRemoving
  · exact fun h => hf' h.2.isRemoving

section

variable (hi : Inv s) (hstack : s.stack = f :: rest)

include hi hstack

/-- The one-time list is empty or already running. -/
theorem Inv.skip_once (hphase : f.phase = .atOnce)
    (hskip : (s.lists (.once, f.cond)).elems.length = 0 ∨ (s.lists (.once, f.cond)).flag) :
    Inv { s with stack := { f with phase := .atKeep } :: rest } := by
  have hf : ¬ f.IsRemoving := by simp [Frame.IsRemoving, hphase]
  have hf' : ¬ ({ f with phase := .atKeep } : Frame).IsRemoving := by simp [Frame.IsRemoving]
  have hm : Moves s { s with stack := { f with phase := .atKeep } :: rest } f
      { f with phase := .atKeep } rest [] :=
    ⟨hstack, rfl, rfl, rfl, fun _ => rfl, fun _ => rfl, rfl, rfl, rfl, rfl,
      (append_nil _).symm, fun _ h => absurd h not_mem_nil⟩
  refine hi.move hm (.of_eq fun _ _ _ _ => rfl) (fun ρ _ hok => ?_) ?_ (fun c => ?_)
    (fun _ _ h => absurd h hf') fun _ h => absurd h not_mem_nil
  · obtain ⟨hcond, hcan, hle, hph⟩ := hok
    rw [hphase] at hph
    refine ⟨hcond, hcan, hle, fun hnested n g hg hkey _ hlive => ?_, hph.2⟩
    rw [hcond] at hkey
    have hflag : (s.lists (.once, f.cond)).flag = false := hph.1.symm.trans hnested
    have hempty : (s.lists (.once, f.cond)).elems = [] :=
      length_eq_zero_iff.mp (hskip.resolve_right (by simp [hflag]))
    rcases hi.onces.gone n g hg (by rw [hkey]) hlive with ⟨cb, hcb, -⟩ | hone
    · rw [hkey, hempty] at hcb
      exact absurd hcb not_mem_nil
    · exact hone
  · refine hi.onces.congr hi.lists (fun _ => rfl) rfl rfl (fun _ _ _ _ => rfl) fun c p => ?_
    rw [hstack]
    exact running_congr hf hf' c p
  · rw [flag_congr hf hf']
    exact hi.frames.flag_of_stack hstack c

/-- A raise that has walked both lists returns. -/
theorem Inv.pop (hf : ¬ f.IsRemoving)
    (hρ : s.raises[f.raise]? = some ρ) (honce : OnceDone s ρ) (hkeep : KeepDone s f.raise ρ) :
    Inv { s with stack := rest } := by
  have horder := hi.frames.order
  have halone := hi.frames.alone
  rw [hstack, pairwise_cons] at horder halone
  have hreturned : ∀ r, ({ s with stack := rest } : Pe).Returned r → r ≠ f.raise →
      s.Returned r := by
    intro r hr hne g hg
    rw [hstack] at hg
    rcases mem_cons.mp hg with rfl | hg
    · exact hne.symm
    · exact hr g hg
  refine ⟨hi.lists.congr (fun _ => rfl) (fun _ => rfl) rfl rfl rfl, ?_, ?_, ?_⟩
  · refine hi.onces.congr hi.lists (fun _ => rfl) rfl rfl (fun _ _ _ _ => rfl) fun c p => ?_
    rw [hstack, running_cons, or_iff_right fun h => hf h.2.isRemoving]
  · refine ⟨horder.2, fun g hg => ?_, fun c => ?_, halone.2, fun g hg => ?_⟩
    · exact hi.frames.ok g (hstack ▸ mem_cons_of_mem _ hg)
    · rw [hi.frames.flag_of_stack hstack]
      simp only [mem_cons, exists_eq_or_imp, hf, and_false, false_or]
    · exact hi.frames.rest_calling hstack (mem_of_mem_tail hg)
  · refine ⟨fun r ρ' hρ' hr => ?_, fun r ρ' hρ' hr => ?_, hi.done.raise_lt, hi.done.since,
      hi.done.regs_le⟩
    · by_cases heq : r = f.raise
      · subst heq
        obtain rfl := Option.mem_unique hρ hρ'
        exact honce
      · exact hi.done.once r ρ' hρ' (hreturned r hr heq)
    · by_cases heq : r = f.raise
      · subst heq
        obtain rfl := Option.mem_unique hρ hρ'
        exact hkeep
      · exact hi.done.keep r ρ' hρ' (hreturned r hr heq)

/-- A callback of the kept list fires in the innermost raise. -/
theorem Inv.call_keep {i since : Nat}
    (h : s.call (.keep, f.cond) i since f' rest = some s') (hf : ¬ f.IsRemoving)
    (hf' : ¬ f'.IsRemoving) (hraise : f'.raise = f.raise) (hcond : f'.cond = f.cond)
    (hsince : ∀ cb, (s.lists (.keep, f.cond)).elems[i]? = some cb →
      cb.reg < since ∧ since ≤ s.regs.length)
    (hframe : ∀ ρ cb, FrameOk s f ρ → (s.lists (.keep, f.cond)).elems[i]? = some cb →
      s'.fired = s.fired ++ [⟨cb.reg, f.raise, since⟩] → Persist s s' → s'.lists = s.lists →
      s'.regs = s.regs → s'.cancelled = s.cancelled → FrameOk s' f' ρ) : Inv s' := by
  obtain ⟨cb, hcb, rfl⟩ := call_eq_some h
  have hmem := mem_of_getElem? hcb
  have hhits : ∀ n g, s.regs[n]? = some g → g.key.1 = .once → Pe.hits { s with
      stack := f' :: rest, fired := s.fired ++ [⟨cb.reg, f'.raise, since⟩] } n = s.hits n :=
    fun n g hg hkey => by
      rw [hits_append rfl]
      simp [hi.lists.reg_ne hmem hg (by simp [hkey])]
  have hm : Moves s { s with
      stack := f' :: rest, fired := s.fired ++ [⟨cb.reg, f'.raise, since⟩] } f f' rest
      [⟨cb.reg, f'.raise, since⟩] :=
    ⟨hstack, rfl, hraise, hcond, fun _ => rfl, fun _ => rfl, rfl, rfl, rfl, rfl, rfl,
      fun x hx => by rw [mem_singleton.mp hx]⟩
  refine hi.move hm (.of_eq hhits) (fun ρ _ hok => ?_) ?_ (fun c => ?_)
    (fun _ _ h => absurd h hf') fun x hx => ?_
  · exact hframe ρ cb hok hcb (by rw [hraise]) (.of_eq hhits) rfl rfl rfl
  · refine hi.onces.congr hi.lists (fun _ => rfl) rfl rfl hhits fun c p => ?_
    rw [hstack]
    exact running_congr hf hf' c p
  · rw [flag_congr hf hf']
    exact hi.frames.flag_of_stack hstack c
  · rw [mem_singleton.mp hx]
    exact hsince cb hcb

/-- The walk over the kept list begins. -/
theorem Inv.callCblistKeep (hphase : f.phase = .atKeep) (h : s.callCblistKeep f rest = some s') :
    Inv s' ∧ ∀ g ∈ s'.stack, g.IsCalling := by
  have hf : ¬ f.IsRemoving := by simp [Frame.IsRemoving, hphase]
  obtain ⟨ρ, hρ, hok⟩ := hi.frames.ok f (hstack ▸ mem_cons_self)
  unfold Pe.callCblistKeep at h
  simp only at h
  split at h
  next hlen =>
    cases h
    obtain ⟨hcond, hcan, hle, hph⟩ := hok
    rw [hphase] at hph
    refine ⟨hi.pop hstack hf hρ hph.1 fun n g hg hkey _ hlive => ?_,
      fun g hg => hi.frames.rest_calling hstack hg⟩
    rw [hcan] at hlive
    obtain ⟨cb, hcb, -⟩ := hi.lists.kept n g hg (by rw [hkey]) hlive
    rw [hkey, hcond, length_eq_zero_iff.mp hlen] at hcb
    exact absurd hcb not_mem_nil
  next hlen =>
    refine ⟨hi.call_keep hstack h hf ?_ rfl rfl (fun cb hcb => ?_) ?_, ?_⟩
    · exact fun hremoving => hremoving
    · exact ⟨hi.lists.reg_lt (mem_of_getElem? hcb), le_refl _⟩
    · intro ρ cb hok hcb hfired hp hlists hregs hcan'
      obtain ⟨hcond, hcan, hle, hph⟩ := hok
      rw [hphase] at hph
      refine ⟨hcond, hcan.trans hcan'.symm, hregs ▸ hle, hph.1.mono hregs hcan' hp, ?_, ?_⟩
      · refine ⟨pos_of_ne_zero hlen, ?_, hle, hregs.symm ▸ le_refl _, fun p x hx => ?_⟩
        · rw [hlists]
        rw [hlists] at hx
        have hlt := (List.getElem?_eq_some_iff.mp hx).1
        exact iff_of_true (hi.lists.reg_lt (mem_of_getElem? hx)) hlt
      · intro p x hx
        rw [hlists] at hx
        have hzero := hph.2 x.reg _ (hi.lists.elem _ x (mem_of_getElem? hx)) rfl
        rw [hits_in_fire hfired rfl, hzero, zero_add]
        refine if_congr ⟨fun heq => ?_, fun hp0 => ?_⟩ rfl rfl
        · exact (hi.lists.pos_inj hcb hx heq).ge
        · obtain rfl : p = 0 := Nat.le_zero.mp hp0
          exact congrArg CcdCondCallback.reg (Option.mem_unique hcb hx)
    · obtain ⟨cb, -, rfl⟩ := call_eq_some h
      intro g hg
      rcases mem_cons.mp hg with rfl | hg
      · exact trivial
      · exact hi.frames.rest_calling hstack hg

/-- `call_cblist_keep` goes on after a callback. -/
theorem Inv.next_keep (hphase : f.phase = .keeping i len since) (hlt : i + 1 < len)
    (h : s.call (.keep, f.cond) (i + 1) since { f with phase := .keeping (i + 1) len since } rest =
      some s') : Inv s' := by
  have hf : ¬ f.IsRemoving := by simp [Frame.IsRemoving, hphase]
  obtain ⟨ρ, hρ, hok⟩ := hi.frames.ok f (hstack ▸ mem_cons_self)
  obtain ⟨-, -, -, hph⟩ := hok
  rw [hphase] at hph
  obtain ⟨-, ⟨-, -, -, hsince, hfirst⟩, -⟩ := hph
  refine hi.call_keep hstack h hf ?_ rfl rfl (fun cb hcb => ?_) ?_
  · exact fun hremoving => hremoving
  · exact ⟨(hfirst _ cb hcb).mpr hlt, hsince⟩
  · intro ρ cb hok hcb hfired hp hlists hregs hcan'
    obtain ⟨hcond, hcan, hle, hph⟩ := hok
    rw [hphase] at hph
    obtain ⟨honce, hwalks, hkept⟩ := hph
    refine ⟨hcond, hcan.trans hcan'.symm, hregs ▸ hle, honce.mono hregs hcan' hp, ?_, ?_⟩
    · exact Walks.mono ⟨hlt, hwalks.2⟩ (by rw [hlists]) hregs
    · intro p x hx
      rw [hlists] at hx
      rw [hits_in_fire hfired rfl, hkept p x hx]
      by_cases hpi : p = i + 1
      · subst hpi
        obtain rfl := Option.mem_unique hcb hx
        rw [if_pos rfl, if_neg (by omega), if_pos (le_refl _)]
      · have hne : cb.reg ≠ x.reg := fun heq => hpi (hi.lists.pos_inj hcb hx heq).symm
        rw [if_neg hne]
        exact if_congr (by omega) rfl rfl

/-- `call_cblist_keep` returns. -/
theorem Inv.end_keep (hphase : f.phase = .keeping i len since) (hlast : ¬ i + 1 < len) :
    Inv { s with stack := rest } := by
  obtain ⟨ρ, hρ, hcond, hcan, -, hph⟩ := hi.frames.ok f (hstack ▸ mem_cons_self)
  rw [hphase] at hph
  obtain ⟨honce, ⟨hlt, -, hregs, -, hfirst⟩, hkept⟩ := hph
  refine hi.pop hstack (by simp [Frame.IsRemoving, hphase]) hρ honce ?_
  intro n g hg hkey hn hlive
  rw [hcan] at hlive
  obtain ⟨cb, hcb, rfl⟩ := hi.lists.kept n g hg (by rw [hkey]) hlive
  rw [hkey, hcond] at hcb
  obtain ⟨p, hp⟩ := mem_iff_getElem?.mp hcb
  have hpos := (hfirst p cb hp).mp (by omega)
  rw [hkept p cb hp, if_pos (by omega)]

end

/-- A callback of the one-time list fires: its position joins those that have fired. The flags may
change. -/
theorem Inv.call_once {lists' : Key → CcdCblist} (hi : Inv s) (hstack : s.stack = f :: rest)
    (h : ({ s with lists := lists' } : Pe).call (.once, f.cond) i since f' rest = some s')
    (hphase' : f'.phase = .removing i len since) (hraise : f'.raise = f.raise)
    (hcond : f'.cond = f.cond) (helems : ∀ key, (lists' key).elems = (s.lists key).elems)
    (hnext : ∀ key, (lists' key).nextId = (s.lists key).nextId)
    (hflag : ∀ c, (lists' (.once, c)).flag = true ↔ ∃ g ∈ f' :: rest, g.cond = c ∧ g.IsRemoving)
    (halone : ∀ g ∈ rest, g.IsRemoving → f.cond ≠ g.cond)
    (hwindow : ∀ p, f'.InWindow p ↔ f.InWindow p ∨ p = i) (hnot : ¬ f.InWindow i)
    (hwalks : ∀ ρ, FrameOk s f ρ → Walks s (.once, f.cond) i len since ρ ∧ NoKeep s f.raise) :
    Inv s' := by
  obtain ⟨cb, hcb, hs'⟩ := call_eq_some h
  rw [helems] at hcb
  have hmem := mem_of_getElem? hcb
  have hm : Moves s s' f f' rest [⟨cb.reg, f'.raise, since⟩] := by
    rw [hs']
    exact ⟨hstack, rfl, hraise, hcond, helems, hnext, rfl, rfl, rfl, rfl, rfl,
      fun x hx => by rw [mem_singleton.mp hx]⟩
  have hrun : ∀ c p, RunningIn (f' :: rest) c p ↔
      RunningIn s.stack c p ∨ (c = f.cond ∧ p = i) := by
    intro c p
    rw [hstack, running_cons, running_cons, hwindow, hcond]
    tauto
  have hnotrun : ¬ RunningIn s.stack f.cond i := by
    rw [hstack, running_cons]
    rintro (⟨-, hwin⟩ | ⟨g, hg, hgc, hwin⟩)
    · exact hnot hwin
    · exact halone g hg hwin.isRemoving hgc.symm
  obtain ⟨honces, hp⟩ : Onces s' ∧ Persist s s' := by
    rw [hs']
    exact hi.onces.fire hi.lists hcb rfl hnotrun helems rfl rfl rfl hrun
  subst hs'
  obtain ⟨ρ₀, hρ₀, hok₀⟩ := hi.frames.ok f (hstack ▸ mem_cons_self)
  refine hi.move hm hp (fun ρ _ hok => ?_) honces hflag (fun g hg _ hg' => ?_) fun x hx => ?_
  · obtain ⟨hw, hno⟩ := hwalks ρ hok
    obtain ⟨hρcond, hcan, hle, -⟩ := hok
    refine ⟨hρcond.trans hcond.symm, hcan, hle, ?_⟩
    rw [hphase', hcond]
    refine ⟨hw.mono (helems _) rfl, ?_⟩
    rw [← hraise] at hno
    intro n g hg hkey
    refine (hits_in_fire (s := s) (x := ⟨cb.reg, f'.raise, since⟩) rfl rfl n).trans ?_
    rw [hno n g hg hkey, if_neg (hi.lists.reg_ne hmem hg (by simp [hkey]))]
  · rw [hcond]
    exact halone g hg hg'
  · rw [mem_singleton.mp hx]
    obtain ⟨⟨hlt, -, -, hsince, hfirst⟩, -⟩ := hwalks ρ₀ hok₀
    exact ⟨(hfirst i cb hcb).mpr hlt, hsince⟩

/-- No outer raise walks the one-time list of the innermost one. -/
theorem Frames.alone_of_flag (h : Frames s) (hstack : s.stack = f :: rest)
    (hflag : (s.lists (.once, f.cond)).flag = false) :
    ∀ g ∈ rest, g.IsRemoving → f.cond ≠ g.cond := by
  intro g hg hremoving heq
  have htrue := (h.flag_of_stack hstack f.cond).mpr
    ⟨g, mem_cons_of_mem _ hg, heq.symm, hremoving⟩
  rw [hflag] at htrue
  cases htrue

/-- No two walks over one one-time list are on the stack. -/
theorem Frames.alone_of_removing (h : Frames s) (hstack : s.stack = f :: rest)
    (hf : f.IsRemoving) : ∀ g ∈ rest, g.IsRemoving → f.cond ≠ g.cond := by
  intro g hg hremoving
  have halone := h.alone
  rw [hstack, pairwise_cons] at halone
  exact halone.1 g hg hf hremoving

/-- `call_cblist_remove` up to its first callback. -/
theorem Inv.start_remove {len : Nat} (hi : Inv s) (hstack : s.stack = f :: rest)
    (hphase : f.phase = .atOnce) (hlen : (s.lists (.once, f.cond)).elems.length = len)
    (hpos : len ≠ 0) (hflag : (s.lists (.once, f.cond)).flag = false)
    (h : (s.setFlag (.once, f.cond) true).call (.once, f.cond) (len - 1) s.regs.length
      { f with phase := .removing (len - 1) len s.regs.length } rest = some s') : Inv s' := by
  have hset : ∀ key, update s.lists (.once, f.cond)
      { s.lists (.once, f.cond) with flag := true } key =
      { s.lists key with flag := if key = (.once, f.cond) then true else (s.lists key).flag } := by
    intro key
    by_cases hkey : key = (.once, f.cond)
    · subst hkey
      rw [update_self, if_pos rfl]
    · rw [update_of_ne hkey, if_neg hkey]
  have hwin : ∀ p, ¬ f.InWindow p := fun p => by simp [Frame.InWindow, hphase]
  refine hi.call_once hstack h rfl rfl rfl (fun key => by rw [hset]) (fun key => by rw [hset])
    (fun c => ?_) (hi.frames.alone_of_flag hstack hflag) (fun p => ?_) (hwin _) fun ρ hok => ?_
  · rw [hset, exists_mem_cons_iff]
    by_cases hc : c = f.cond
    · subst hc
      simp [Frame.IsRemoving]
    · have hne : ((Kind.once, c) : Key) ≠ (.once, f.cond) := fun heq => hc (congrArg Prod.snd heq)
      simp only [hne, if_false, Ne.symm hc, false_and, false_or]
      rw [hi.frames.flag_of_stack hstack, exists_mem_cons_iff, or_iff_right]
      exact fun hf => hc hf.1.symm
  · simp only [Frame.InWindow, hphase, false_or]
    omega
  · obtain ⟨-, -, hle, hph⟩ := hok
    rw [hphase] at hph
    refine ⟨⟨by omega, hlen.ge, hle, le_refl _, fun p cb hcb => ?_⟩, hph.2⟩
    have hlt := (List.getElem?_eq_some_iff.mp hcb).1
    exact iff_of_true (hi.lists.reg_lt (mem_of_getElem? hcb)) (hlen ▸ hlt)

/-- `call_cblist_remove` goes on after a callback. -/
theorem Inv.next_remove (hi : Inv s) (hstack : s.stack = f :: rest)
    (hphase : f.phase = .removing i len since) (hpos : i ≠ 0)
    (h : s.call (.once, f.cond) (i - 1) since { f with phase := .removing (i - 1) len since } rest =
      some s') : Inv s' := by
  have hf : f.IsRemoving := by simp [Frame.IsRemoving, hphase]
  obtain ⟨ρ₀, -, -, -, -, hph⟩ := hi.frames.ok f (hstack ▸ mem_cons_self)
  rw [hphase] at hph
  have hlt : i < len := hph.1.1
  refine hi.call_once hstack h rfl rfl rfl (fun _ => rfl) (fun _ => rfl) (fun c => ?_)
    (hi.frames.alone_of_removing hstack hf) (fun p => ?_) ?_ fun ρ hok => ?_
  · rw [hi.frames.flag_of_stack hstack, exists_mem_cons_iff, exists_mem_cons_iff]
    exact or_congr_left (and_congr_right fun _ => iff_of_true hf trivial)
  · simp only [Frame.InWindow, hphase]
    omega
  · simp only [Frame.InWindow, hphase]
    omega
  · obtain ⟨-, -, -, hph⟩ := hok
    rw [hphase] at hph
    exact ⟨⟨by omega, hph.1.2⟩, hph.2⟩

/-- What the end of `call_cblist_remove` leaves: without the first `len` one-time callbacks of the
condition, the raise `f` goes on with the kept list. -/
structure Removed (s s' : Pe) (f : Frame) (rest : List Frame) (len : Nat) : Prop where
  self : s'.lists (.once, f.cond) = { s.lists (.once, f.cond) with
    elems := (s.lists (.once, f.cond)).elems.drop len, flag := false }
  other : ∀ key, key ≠ (.once, f.cond) → s'.lists key = s.lists key
  regs : s'.regs = s.regs
  raises : s'.raises = s.raises
  cancelled : s'.cancelled = s.cancelled
  fired : s'.fired = s.fired
  timed : s'.numTimed = (s.addTimed f.cond (-len)).numTimed
  stack : s'.stack = { f with phase := .atKeep } :: rest

/-- `call_cblist_remove` ends with the removal of what it has walked over. -/
theorem end_remove_removed {len : Nat} (hpos : 0 < len)
    (hlen : len ≤ (s.lists (.once, f.cond)).elems.length) :
    Removed s (s.endRemove f rest len) f rest len := by
  have hno : ¬ (len = 0 ∨ (s.lists (.once, f.cond)).elems.length < len) := by omega
  have heq : s.endRemove f rest len = { s with
      lists := update s.lists (.once, f.cond) { s.lists (.once, f.cond) with
        elems := (s.lists (.once, f.cond)).elems.drop len, flag := false }
      numTimed := (s.addTimed f.cond (-len)).numTimed
      stack := { f with phase := .atKeep } :: rest } := by
    unfold Pe.endRemove Pe.removeNElems
    rw [if_neg hno]
    unfold Pe.setFlag Pe.setElems Pe.addTimed
    split <;> simp
  rw [heq]
  exact ⟨update_self .., fun key hkey => update_of_ne hkey .., rfl, rfl, rfl, rfl, rfl, rfl⟩

namespace Removed

variable {len : Nat} (h : Removed s s' f rest len)

include h

theorem hits (n : Nat) : s'.hits n = s.hits n := by
  unfold Pe.hits
  rw [h.fired]

theorem hits_in (n r : Nat) : s'.hitsIn n r = s.hitsIn n r := by
  unfold Pe.hitsIn
  rw [h.fired]

theorem persist : Persist s s' := .of_eq fun n _ _ _ => h.hits n

/-- Only callbacks are taken away. -/
theorem sublist (key : Key) : (s'.lists key).elems.Sublist (s.lists key).elems := by
  by_cases hkey : key = (.once, f.cond)
  · rw [hkey, h.self]
    exact drop_sublist ..
  · rw [h.other key hkey]

theorem elems_other (key : Key) (hkey : key ≠ (.once, f.cond)) :
    (s'.lists key).elems = (s.lists key).elems := by
  rw [h.other key hkey]

/-- The lists without callbacks at the front. -/
theorem lists (hi : Lists s) (hlen : len ≤ (s.lists (.once, f.cond)).elems.length) :
    Lists s' := by
  have hlen' : ((s'.lists (.once, f.cond)).elems.length : Int) =
      (s.lists (.once, f.cond)).elems.length + -(len : Int) := by
    rw [h.self, length_drop]
    omega
  refine ⟨fun key cb hcb => ?_, fun key => (hi.sorted key).sublist (h.sublist key),
    fun key cb hcb => ?_, fun n g hg hkey hlive => ?_, ?_, fun key => ?_, fun n g hg => ?_,
    timed_of_key hi.timed h.elems_other hlen' h.timed⟩
  · rw [h.regs]
    exact hi.elem key cb ((h.sublist key).subset hcb)
  · rw [h.cancelled]
    exact hi.live key cb ((h.sublist key).subset hcb)
  · rw [h.other _ fun heq => by rw [heq] at hkey; cases hkey]
    exact hi.kept n g (h.regs ▸ hg) hkey (h.cancelled ▸ hlive)
  · rw [h.regs, h.cancelled]
    exact hi.cancelled_lt
  · rw [h.regs, ← hi.nextId key]
    by_cases hkey : key = (.once, f.cond)
    · rw [hkey, h.self]
    · rw [h.other key hkey]
  · rw [h.regs] at hg ⊢
    exact hi.handle n g hg

/-- The raises further out walk other lists, so that the rest of the list has not fired. -/
theorem onces (hi : Onces s) (hstack : s.stack = f :: rest)
    (hwin : ∀ p, f.InWindow p ↔ p < len) (hrest : ∀ p, ¬ RunningIn rest f.cond p) :
    Onces s' := by
  have hrun (c p : Nat) : RunningIn s'.stack c p ↔ RunningIn rest c p := by
    rw [h.stack, running_cons, or_iff_right fun h => h.2]
  have hne {c : Nat} (hc : c ≠ f.cond) : (Kind.once, c) ≠ (.once, f.cond) :=
    fun heq => hc (congrArg Prod.snd heq)
  refine ⟨fun n g hg hkey => ?_, fun n g hg hkey hlive => ?_, fun c p cb hcb hr => ?_,
    fun c p cb hcb hr => ?_⟩
  · rw [h.hits]
    exact hi.hits_le n g (h.regs ▸ hg) hkey
  · rw [h.hits]
    rcases hi.gone n g (h.regs ▸ hg) hkey (h.cancelled ▸ hlive) with ⟨cb, hcb, rfl⟩ | hone
    · by_cases hk : g.key = (.once, f.cond)
      · rw [hk] at hcb ⊢
        obtain ⟨p, hp⟩ := mem_iff_getElem?.mp hcb
        rcases lt_or_ge p len with hlt | hge
        · refine .inr (hi.fired f.cond p cb hp ⟨f, hstack ▸ mem_cons_self, rfl, ?_⟩)
          exact (hwin p).mpr hlt
        · refine .inl ⟨cb, ?_, rfl⟩
          rw [h.self]
          refine mem_of_getElem? (i := p - len) ?_
          rw [getElem?_drop, Nat.add_sub_cancel' hge]
          exact hp
      · rw [h.other _ hk]
        exact .inl ⟨cb, hcb, rfl⟩
    · exact .inr hone
  · rw [hrun] at hr
    have hc : c ≠ f.cond := fun heq => hrest p (heq ▸ hr)
    rw [h.other _ (hne hc)] at hcb
    rw [h.hits]
    refine hi.fired c p cb hcb ?_
    rw [hstack, running_cons]
    exact .inr hr
  · rw [hrun] at hr
    rw [h.hits]
    by_cases hc : c = f.cond
    · subst hc
      rw [h.self, getElem?_drop] at hcb
      refine hi.waiting _ _ cb hcb ?_
      rw [hstack, running_cons]
      rintro (⟨-, hlt⟩ | hlt)
      · have := (hwin _).mp hlt
        omega
      · exact hrest _ hlt
    · rw [h.other _ (hne hc)] at hcb
      refine hi.waiting c p cb hcb ?_
      rw [hstack, running_cons]
      rintro (⟨heq, -⟩ | hlt)
      · exact hc heq.symm
      · exact hr hlt

/-- No raise walks the list any more. -/
theorem flag (hi : Frames s) (hstack : s.stack = f :: rest)
    (halone : ∀ g ∈ rest, g.IsRemoving → f.cond ≠ g.cond) (c : Nat) :
    (s'.lists (.once, c)).flag = true ↔
      ∃ g ∈ { f with phase := .atKeep } :: rest, g.cond = c ∧ g.IsRemoving := by
  rw [exists_mem_cons_iff, or_iff_right fun h => h.2]
  by_cases hc : c = f.cond
  · subst hc
    rw [h.self]
    simp only [Bool.false_eq_true, false_iff]
    rintro ⟨g, hg, hgc, hremoving⟩
    exact halone g hg hremoving hgc.symm
  · rw [h.other _ fun heq => hc (congrArg Prod.snd heq), hi.flag_of_stack hstack,
      exists_mem_cons_iff, or_iff_right fun h => hc h.1.symm]

end Removed

/-- The callbacks that have fired are removed, and the raise goes on with the kept list. -/
theorem Inv.end_remove {len since : Nat} (hi : Inv s) (hstack : s.stack = f :: rest)
    (hphase : f.phase = .removing 0 len since) : Inv (s.endRemove f rest len) := by
  have hf : f.IsRemoving := by simp [Frame.IsRemoving, hphase]
  obtain ⟨ρ, hρ, hcond, hcan, hle, hph⟩ := hi.frames.ok f (hstack ▸ mem_cons_self)
  rw [hphase] at hph
  obtain ⟨⟨hpos, hlen, hregs, hsince, hfirst⟩, hno⟩ := hph
  have halone := hi.frames.alone_of_removing hstack hf
  have hr : Removed s (s.endRemove f rest len) f rest len := end_remove_removed hpos hlen
  -- The walk has reached the start of the list, so all elements it covers have fired.
  have hwin (p : Nat) : f.InWindow p ↔ p < len := by
    simp [Frame.InWindow, hphase]
  have honce : OnceDone s ρ := by
    intro _ n g hg hkey hlt hlive
    rw [hcond] at hkey
    rcases hi.onces.gone n g hg (by rw [hkey]) hlive with ⟨cb, hcb, rfl⟩ | hone
    · rw [hkey] at hcb
      obtain ⟨p, hp⟩ := mem_iff_getElem?.mp hcb
      have hwindow := (hwin p).mpr ((hfirst p cb hp).mp (by omega))
      exact hi.onces.fired f.cond p cb hp ⟨f, hstack ▸ mem_cons_self, rfl, hwindow⟩
    · exact hone
  have hrest (p : Nat) : ¬ RunningIn rest f.cond p := by
    rintro ⟨g, hg, hgc, hgwin⟩
    exact halone g hg hgwin.isRemoving hgc.symm
  obtain ⟨hframes, hdone⟩ : Frames (s.endRemove f rest len) ∧ Done (s.endRemove f rest len) := by
    refine hi.frames_done hstack hr.stack rfl hr.regs hr.raises hr.cancelled
      (hr.fired.trans (append_nil _).symm) (fun _ h => absurd h not_mem_nil) hr.persist
      (fun g hg hremoving => ?_) (fun c => hr.elems_other _ (by simp)) (fun ρ' hρ' _ => ?_)
      (hr.flag hi.frames hstack halone) (fun _ _ h => h.elim) fun _ h => absurd h not_mem_nil
    · exact hr.elems_other _ fun heq => halone g hg hremoving (congrArg Prod.snd heq).symm
    · obtain rfl := Option.mem_unique hρ hρ'
      exact ⟨hcond, hcan.trans hr.cancelled.symm, hr.regs ▸ hle,
        honce.mono hr.regs hr.cancelled hr.persist, hno.mono hr.regs fun n => hr.hits_in n _⟩
  exact ⟨hr.lists hi.lists hlen, hr.onces hi.onces hstack hwin hrest, hframes, hdone⟩

end Points

end Reconverse.Conds
