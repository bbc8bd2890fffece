import Reconverse.Ipc.Steps

/-!
# Conservation and order of the blocks of the IPC pool

In every run every block that was cut from a segment is in exactly one place, and the blocks that
one PE pushes for another arrive there in the order of the pushes.
-/

namespace Reconverse.Ipc

open Function (update update_self)
open Lib List State

variable {m : Machine} {host : Host} {s s' : State} {xs : ListName → List Nat} {b b' : Loc}
  {es : List Event} {d pe : Nat}

/-! ## Conservation -/

/-- The invariant holds in every state. -/
theorem run_inv (hrun : Steps (Step host.toMachine) (.initial host) es s) :
    ∃ xs, Inv host.toMachine s xs :=
  hrun.invariant (I := fun s => ∃ xs, Inv host.toMachine s xs)
    (fun _ _ _ ⟨_, h⟩ hstep => h.step hstep) ⟨_, initial_inv host⟩

/-- Two blocks do not overlap, with their headers. -/
def Apart (s : State) (b b' : Loc) : Prop :=
  b.offset + sizeofIpcBlock + s.size b ≤ b'.offset ∨
    b'.offset + sizeofIpcBlock + s.size b' ≤ b.offset

/-- A block is aligned and inside its segment. -/
def Inside (s : State) (b : Loc) : Prop :=
  b.offset % alignofIpcBlock = 0 ∧ segmentBegin ≤ b.offset ∧
    b.offset + sizeofIpcBlock + s.size b ≤ s.max b.proc

/-- Every block lies in its segment. -/
theorem Inv.inside (h : Inv m s xs) (hb : s.Carved b) : Inside s b := by
  obtain ⟨c, hc, hoff⟩ := hb
  obtain ⟨hbegin, hmod, hend⟩ := (h.space b.proc).inside hc
  have hsize := (h.header b.proc c hc).size
  have hfits := (h.fits b.proc).1
  have hstride := (stride_spec c.bin).1
  rw [hoff] at hbegin hmod hend hsize
  refine ⟨hmod, hbegin, ?_⟩
  rw [hsize]
  omega

/-- Two blocks of one segment are apart. -/
theorem Inv.apart (h : Inv m s xs) (hb : s.Carved b) (hb' : s.Carved b') (hne : b ≠ b')
    (hproc : b.proc = b'.proc) : Apart s b b' := by
  obtain ⟨c, hc, hoff⟩ := hb
  obtain ⟨c', hc', hoff'⟩ := hb'
  rw [← hproc] at hc'
  have hsize := (h.header b.proc c hc).size
  have hsize' := (h.header b.proc c' hc').size
  have hstride := (stride_spec c.bin).1
  have hstride' := (stride_spec c'.bin).1
  have hcc : c ≠ c' := fun heq => hne (by
    cases b
    cases b'
    simp_all)
  -- Of two blocks one was cut before the other.
  have hpair := (h.space b.proc).apart
  have hcases : c'.offset + stride c'.bin ≤ c.offset ∨ c.offset + stride c.bin ≤ c'.offset := by
    have hsymm : (s.carved b.proc).Pairwise fun c d =>
        d.offset + stride d.bin ≤ c.offset ∨ c.offset + stride c.bin ≤ d.offset :=
      hpair.imp fun hle => .inl hle
    have : Std.Symm fun c d : Carving =>
        d.offset + stride d.bin ≤ c.offset ∨ c.offset + stride c.bin ≤ d.offset :=
      ⟨fun _ _ => Or.symm⟩
    exact hsymm.forall hc hc' hcc
  rw [hoff] at hsize hcases
  rw [hoff', hproc] at hsize'
  rw [Apart, hsize, hsize']
  omega

/-- In every run every block that was cut from a segment is in exactly one place: a list, an inbox,
or with one holder. The free blocks are in the caches and return lists of the PE that they were cut
for, in the bin of their size, and a block that is freed goes back there. Blocks are aligned, inside
their segment, and do not overlap. -/
theorem blocks_conserved (hrun : Steps (Step host.toMachine) (.initial host) es s) :
    ∃ xs : ListName → List Nat,
      (∀ l, Chain listEnd (fun x => s.next ⟨l.segment, x⟩) (s.head l) (xs l)) ∧
      Placed s.Carved (places s xs) ∧
      (∀ q pe bin, ∀ x ∈ xs (.cache q pe bin) ++ xs (.ret q pe bin),
        ∃ c ∈ s.carved q, c.offset = x ∧ c.pe = pe ∧ c.bin = bin) ∧
      (∀ q, ∀ c ∈ s.carved q, s.segmentProc ⟨q, c.offset⟩ = q ∧ s.owner ⟨q, c.offset⟩ = c.pe ∧
        whichBin (s.size ⟨q, c.offset⟩) = c.bin) ∧
      (∀ b, s.Carved b → Inside s b) ∧
      (∀ b b', s.Carved b → s.Carved b' → b ≠ b' → b.proc = b'.proc → Apart s b b') ∧
      ∀ pe b s', Step host.toMachine s (.free pe b) s' → s'.Returned b := by
  obtain ⟨xs, h⟩ := run_inv hrun
  refine ⟨xs, h.chains, h.placed, fun q pe bin x hx => ?_, fun q c hc => ?_,
    fun b hb => h.inside hb,
    fun b b' hb hb' hne hproc => h.apart hb hb' hne hproc, fun pe b s' hstep => ?_⟩
  · rcases mem_append.mp hx with hx | hx
    · exact h.home (.cache q pe bin) x hx
    · exact h.home (.ret q pe bin) x hx
  · have hheader := h.header q c hc
    refine ⟨hheader.segment, hheader.owner, ?_⟩
    rw [hheader.size, which_bin_cut_off hheader.bin]
  · obtain ⟨⟨-, hb⟩, hstep⟩ := Option.ite_none_right_eq_some.mp hstep
    cases hstep
    exact h.returned hb

/-- Two processes of one PE. -/
def twoProcesses : Host where
  numNodes := 2
  nodeSize := 1
  numNodes_pos := Nat.two_pos
  nodeSize_pos := Nat.one_pos
  kSegmentSize := 4096
  mapped := by decide

/-- PE 0 sends a message of 100 bytes to PE 1, which frees it. -/
theorem block_sent_and_freed : ∃ s s', Steps (Step twoProcesses.toMachine) (.initial twoProcesses)
      [.msgTo 0 none 100 1 0, .resume 0, .push 0 ⟨1, segmentBegin⟩, .pop 1, .resume 1] s ∧
    (∃ xs : ListName → List Nat, Placed s.Carved (places s xs)) ∧
    Step twoProcesses.toMachine s (.free 1 ⟨1, segmentBegin⟩) s' ∧
    s'.Returned ⟨1, segmentBegin⟩ := by
  obtain ⟨s, hsteps, hfree⟩ : ∃ s, Steps (Step twoProcesses.toMachine) (.initial twoProcesses)
      [.msgTo 0 none 100 1 0, .resume 0, .push 0 ⟨1, segmentBegin⟩, .pop 1, .resume 1] s ∧
      (s.step twoProcesses.toMachine (.free 1 ⟨1, segmentBegin⟩)).isSome :=
    Steps.exists_of_any (by decide)
  obtain ⟨s', hs'⟩ := Option.isSome_iff_exists.mp hfree
  obtain ⟨xs, -, hplaced, -, -, -, -, hreturned⟩ := blocks_conserved hsteps
  exact ⟨s, s', hsteps, ⟨xs, hplaced⟩, hs', hreturned _ _ _ hs'⟩

/-! ## Order -/

/-- The PE `d` goes on with its call or starts `CmiDeliverIpcInbox`. -/
def Receiving (d : Nat) (e : Event) : Prop := e = .resume d ∨ e = .deliver d

/-- The PE `d` runs alone from `s` to `s'`, and nothing is pushed. -/
def RunsAlone (m : Machine) (d : Nat) (s s' : State) : Prop :=
  ∃ es, (∀ e ∈ es, Receiving d e) ∧ Steps (Step m) s es s' ∧ s'.pushed = s.pushed

theorem RunsAlone.refl (s : State) : RunsAlone m d s s := ⟨[], nofun, .nil s, rfl⟩

theorem RunsAlone.trans {s'' : State} (h : RunsAlone m d s s') (h' : RunsAlone m d s' s'') :
    RunsAlone m d s s'' := by
  obtain ⟨es, hes, hsteps, hpushed⟩ := h
  obtain ⟨es', hes', hsteps', hpushed'⟩ := h'
  refine ⟨es ++ es', fun e he => ?_, hsteps.append hsteps', hpushed'.trans hpushed⟩
  exact (mem_append.mp he).elim (hes e) (hes' e)

theorem RunsAlone.resume (hstep : s.resume m d = some s') (hpushed : s'.pushed = s.pushed) :
    RunsAlone m d s s' :=
  ⟨[.resume d], fun _ he => .inl (mem_singleton.mp he), .single hstep, hpushed⟩

/-- The invariant holds while one PE runs alone. -/
theorem RunsAlone.inv (h : RunsAlone m d s s') (hinv : ∃ xs, Inv m s xs) : ∃ xs, Inv m s' xs := by
  obtain ⟨es, -, hsteps, -⟩ := h
  exact hsteps.invariant (I := fun s => ∃ xs, Inv m s xs) (fun _ _ _ ⟨_, h⟩ hstep => h.step hstep)
    hinv

/-- What one turn of the loop of `CmiDeliverIpcInbox` does not change. -/
theorem deliver_one_rest {rest : List Loc} (hbox : s.inbox d = rest ++ [b]) :
    (s.deliverOne m d).inbox d = rest ∧ (s.deliverOne m d).pc = s.pc ∧
      (s.deliverOne m d).pushed = s.pushed ∧ (s.deliverOne m d).head = s.head := by
  have hlast : (s.inbox d).getLast? = some b := by
    rw [hbox]
    exact getLast?_concat
  have hinbox : update s.inbox d (s.inbox d).dropLast d = rest := by
    rw [update_self, hbox, dropLast_concat]
  simp only [deliverOne, hlast]
  split <;> exact ⟨hinbox, rfl, rfl, rfl⟩

/-- The loop of `CmiDeliverIpcInbox` empties the inbox. -/
theorem deliver_loop (hpc : s.pc d = .deliver) : ∃ s', RunsAlone m d s s' ∧ s'.inbox d = [] ∧
    s'.pc d = .idle ∧ s'.head = s.head := by
  -- Induction on the inbox, from its end.
  generalize hbox : s.inbox d = blocks
  induction blocks using List.reverseRecOn generalizing s with
  | nil =>
    have hstep : s.resume m d = some (s.setPc d .idle) := by
      simp [resume, hpc, deliverOne, hbox]
    exact ⟨_, .resume hstep rfl, hbox, update_self .., rfl⟩
  | append_singleton rest b ih =>
    obtain ⟨hinbox, hpc', hpushed, hhead⟩ := deliver_one_rest hbox
    have hstep : s.resume m d = some (s.deliverOne m d) := by
      simp [resume, hpc]
    obtain ⟨s', hrun, hempty, hidle, hhead'⟩ := ih (by rw [hpc', hpc]) hinbox
    exact ⟨s', (RunsAlone.resume hstep hpushed).trans hrun, hempty, hidle, hhead'.trans hhead⟩

theorem take_into_pushed (s : State) (pe : Nat) (l : ListName) :
    (s.takeInto pe l).pushed = s.pushed ∧ (s.takeInto pe l).pc = s.pc ∧
      (s.takeInto pe l).head = update s.head l listEnd := by
  simp only [State.takeInto, State.takeList]
  split
  next hempty => exact ⟨rfl, rfl, by rw [← hempty, Function.update_eq_self]; rfl⟩
  next => exact ⟨rfl, rfl, rfl⟩

theorem pop_inbox_idle (s : State) (pe : Nat) :
    (s.popInbox pe).pushed = s.pushed ∧ (s.popInbox pe).pc pe = .idle := by
  unfold popInbox
  split
  · exact ⟨rfl, update_self ..⟩
  · split <;> exact ⟨rfl, update_self ..⟩

/-- After a block was cut the call is over or has a source to release. -/
theorem carve_pc (s : State) (pe q bin : Nat) (pending : Option Pending) :
    (s.carve m pe q bin pending).pushed = s.pushed ∧
      ((s.carve m pe q bin pending).pc pe = .idle ∨
        ∃ src, (s.carve m pe q bin pending).pc pe = .release src) := by
  simp only [carve]
  split
  · exact ⟨rfl, .inl (update_self ..)⟩
  · rw [allocated_eq]
    refine ⟨rfl, ?_⟩
    simp only [update_self]
    rcases pending with _ | ⟨_ | src, rank⟩
    · exact .inl rfl
    · exact .inl rfl
    · exact .inr ⟨src, rfl⟩

/-- A PE that has a source to release does so and is then done. -/
theorem release_call {src : Loc} (hpc : s.pc d = .release src) :
    ∃ s', RunsAlone m d s s' ∧ s'.pc d = .idle := by
  have hstep : s.resume m d = some (((s.drop src (.pe d)).cmiFreeIpcBlock src).setPc d .idle) := by
    rw [resume, hpc]
  exact ⟨_, .resume hstep rfl, update_self ..⟩

/-- A PE finishes the call that it is in. -/
theorem finish_call (m : Machine) (s : State) (d : Nat) : ∃ s', RunsAlone m d s s' ∧
    s'.pc d = .idle := by
  cases hpc : s.pc d with
  | idle => exact ⟨s, .refl s, hpc⟩
  | carve q bin pending =>
    have hstep : s.resume m d = some (s.carve m d q bin pending) := by
      rw [resume, hpc]
    obtain ⟨hpushed, hidle | ⟨src, hrelease⟩⟩ := carve_pc s d q bin pending
    · exact ⟨_, .resume hstep hpushed, hidle⟩
    · obtain ⟨s', hrun, hidle⟩ := release_call hrelease
      exact ⟨s', (RunsAlone.resume hstep hpushed).trans hrun, hidle⟩
  | release src => exact release_call hpc
  | takeNode deliver =>
    obtain ⟨hpushed, -, -⟩ := take_into_pushed s d (.nodeRq (m.cmiNodeOf d))
    cases deliver with
    | true =>
      have hstep : s.resume m d =
          some ((s.takeInto d (.nodeRq (m.cmiNodeOf d))).setPc d .deliver) := by
        rw [resume, hpc]
        rfl
      obtain ⟨s', hrun, -, hidle, -⟩ := deliver_loop
        (s := (s.takeInto d (.nodeRq (m.cmiNodeOf d))).setPc d .deliver) (update_self ..)
      exact ⟨s', (RunsAlone.resume hstep hpushed).trans hrun, hidle⟩
    | false =>
      have hstep : s.resume m d = some ((s.takeInto d (.nodeRq (m.cmiNodeOf d))).popInbox d) := by
        rw [resume, hpc]
        rfl
      obtain ⟨hpushed', hidle⟩ := pop_inbox_idle (s.takeInto d (.nodeRq (m.cmiNodeOf d))) d
      exact ⟨_, .resume hstep (hpushed'.trans hpushed), hidle⟩
  | deliver =>
    obtain ⟨s', hrun, -, hidle, -⟩ := deliver_loop hpc
    exact ⟨s', hrun, hidle⟩

/-- `CmiDeliverIpcInbox` with blocks in the inbox. -/
theorem empty_inbox (hidle : s.Idle m d) (hpeers : 1 < m.numNodes) :
    ∃ s', RunsAlone m d s s' ∧ s'.pc d = .idle ∧ s'.inbox d = [] := by
  by_cases hempty : s.inbox d = []
  · exact ⟨s, .refl s, hidle.2, hempty⟩
  · have hstep : s.step m (.deliver d) = some (s.setPc d .deliver) := by
      simp only [step, if_pos hidle, receive, if_neg (not_le.mpr hpeers), if_neg hempty, if_true]
    obtain ⟨s', hrun, hinbox, hpc, -⟩ := deliver_loop (s := s.setPc d .deliver)
      (update_self ..)
    have hfirst : RunsAlone m d s (s.setPc d .deliver) :=
      ⟨[.deliver d], fun _ he => .inr (mem_singleton.mp he), .single hstep, rfl⟩
    exact ⟨s', hfirst.trans hrun, hpc, hinbox⟩

/-- `CmiDeliverIpcInbox` with an empty inbox takes and delivers everything in the receive queues of
the PE and of its process. -/
theorem empty_queue (hidle : s.Idle m d) (hpeers : 1 < m.numNodes) (hempty : s.inbox d = []) :
    ∃ s', RunsAlone m d s s' ∧ s'.inbox d = [] ∧
      s'.head (ownRq m d) = listEnd ∧
      s'.head (.nodeRq (m.cmiNodeOf d)) = listEnd := by
  obtain ⟨hpushed₁, -, hhead₁⟩ := take_into_pushed s d (ownRq m d)
  have hstep₁ : s.step m (.deliver d) = some ((s.takeInto d (ownRq m d)).setPc d
      (.takeNode true)) := by
    simp only [step, if_pos hidle, receive, if_neg (not_le.mpr hpeers), if_pos hempty]
  generalize hs₁ : (s.takeInto d (ownRq m d)).setPc d (.takeNode true) = s₁
    at hstep₁
  have hpc₁ : s₁.pc d = .takeNode true := by
    rw [← hs₁]
    exact update_self ..
  obtain ⟨hpushed₂, -, hhead₂⟩ := take_into_pushed s₁ d (.nodeRq (m.cmiNodeOf d))
  have hstep₂ : s₁.resume m d =
      some ((s₁.takeInto d (.nodeRq (m.cmiNodeOf d))).setPc d .deliver) := by
    rw [resume, hpc₁]
    rfl
  obtain ⟨s', hrun, hinbox, -, hhead⟩ := deliver_loop
    (s := (s₁.takeInto d (.nodeRq (m.cmiNodeOf d))).setPc d .deliver) (update_self ..)
  have hfirst : RunsAlone m d s s₁ :=
    ⟨[.deliver d], fun _ he => .inr (mem_singleton.mp he), .single hstep₁, by
      rw [← hs₁]
      exact hpushed₁⟩
  refine ⟨s', (hfirst.trans (.resume hstep₂ hpushed₂)).trans hrun, hinbox, ?_, ?_⟩
  · rw [hhead]
    show (s₁.takeInto d (.nodeRq (m.cmiNodeOf d))).head _ = _
    rw [hhead₂, ← hs₁]
    show update (s.takeInto d (ownRq m d)).head (.nodeRq (m.cmiNodeOf d))
      listEnd (ownRq m d) = listEnd
    rw [hhead₁]
    simp
  · rw [hhead]
    show (s₁.takeInto d (.nodeRq (m.cmiNodeOf d))).head _ = _
    rw [hhead₂, update_self]

/-- A PE that runs alone empties its inbox and the receive queues. -/
theorem empty_all (s : State) (hd : d < m.cmiNumPes) (hpeers : 1 < m.numNodes) :
    ∃ s', RunsAlone m d s s' ∧ s'.inbox d = [] ∧
      s'.head (ownRq m d) = listEnd ∧
      s'.head (.nodeRq (m.cmiNodeOf d)) = listEnd := by
  obtain ⟨s₁, hrun₁, hpc₁⟩ := finish_call m s d
  obtain ⟨s₂, hrun₂, hpc₂, hempty₂⟩ := empty_inbox ⟨hd, hpc₁⟩ hpeers
  obtain ⟨s₃, hrun₃, hempty₃⟩ := empty_queue ⟨hd, hpc₂⟩ hpeers hempty₂
  exact ⟨s₃, (hrun₁.trans hrun₂).trans hrun₃, hempty₃⟩

/-- A PE that runs alone receives everything that was pushed for it. -/
theorem Inv.drain (h : Inv m s xs) (hd : d < m.cmiNumPes) (hpeers : 1 < m.numNodes) :
    ∃ s', RunsAlone m d s s' ∧ s'.arrived d = s.pushed d := by
  obtain ⟨s', hrun, hinbox, hhead, -⟩ := empty_all s hd hpeers
  obtain ⟨xs', h'⟩ := hrun.inv ⟨xs, h⟩
  refine ⟨s', hrun, ?_⟩
  have hqueue : xs' (ownRq m d) = [] :=
    (h'.chains _).head_eq_nil_iff.mp hhead
  have horder := h'.order d
  rw [Ordered, waiting, hinbox, hqueue] at horder
  obtain ⟨es, -, -, hpushed⟩ := hrun
  rw [← hpushed, horder]
  simp

/-- In every run the pushes of one PE for another arrive in the order in which they were made, each
once: the arrivals are always the first ones of the pushes, no two pushes are the same, and once the
receiver has run for a while without new pushes all have arrived. -/
theorem pushes_arrive_in_order (hrun : Steps (Step host.toMachine) (.initial host) es s) (d : Nat) :
    (s.pushed d).Nodup ∧
      (∀ sender, ((s.arrived d).filter fun t => t.sender = sender) <+:
        (s.pushed d).filter fun t => t.sender = sender) ∧
      (d < host.cmiNumPes → 1 < host.numNodes →
        ∃ s', RunsAlone host.toMachine d s s' ∧ s'.arrived d = s.pushed d) := by
  obtain ⟨xs, h⟩ := run_inv hrun
  have hnodup : (s.pushed d).Nodup := (h.times d).1.imp fun {t t'} hlt heq => by
    rw [heq] at hlt
    exact lt_irrefl _ hlt
  refine ⟨hnodup, fun sender => ?_, fun hd hpeers => h.drain hd hpeers⟩
  rw [h.order d, filter_append]
  exact prefix_append ..

/-- PE 0 pushes two messages for PE 1. -/
theorem two_pushes_arrive : ∃ s, Steps (Step twoProcesses.toMachine) (.initial twoProcesses)
      [.msgTo 0 none 100 1 0, .resume 0, .push 0 ⟨1, segmentBegin⟩, .msgTo 0 none 100 1 0,
        .resume 0, .push 0 ⟨1, segmentBegin + 304⟩] s ∧
    s.pushed 1 = [⟨0, 0⟩, ⟨0, 1⟩] ∧
    ∃ s', RunsAlone twoProcesses.toMachine 1 s s' ∧ s'.arrived 1 = s.pushed 1 := by
  obtain ⟨s, hsteps, hpushed⟩ : ∃ s, Steps (Step twoProcesses.toMachine) (.initial twoProcesses)
      [.msgTo 0 none 100 1 0, .resume 0, .push 0 ⟨1, segmentBegin⟩, .msgTo 0 none 100 1 0,
        .resume 0, .push 0 ⟨1, segmentBegin + 304⟩] s ∧ s.pushed 1 = [⟨0, 0⟩, ⟨0, 1⟩] :=
    Steps.exists_of_any (by decide)
  obtain ⟨-, -, hdrain⟩ := pushes_arrive_in_order hsteps 1
  exact ⟨s, hsteps, hpushed, hdrain (by decide) (by decide)⟩

end Reconverse.Ipc
