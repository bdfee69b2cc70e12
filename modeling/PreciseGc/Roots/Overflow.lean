import PreciseGc.Roots.MarkAndSweep

/-!
# Mark-stack overflow

A call of `go` that overflowed has left objects unmarked, which only a later
run of `mark_after_overflow` can find.  `mark_and_sweep` looks at the results of
the calls it makes for the roots in a `StackMap`, but not at those of the calls
for dereferenced and fake roots.  Observing every call, whatever `go` reports,
shows which overflows are recovered before the sweep.
-/

namespace PreciseGc

open Foundation

variable {σ : Type}

/-- A call of `go` with its result, or the begin or the end of a run of `mark_after_overflow`. -/
inductive GoEvent where
  | call (site : CallSite) (overflow : Bool)
  | rescanBegin
  | rescanEnd (overflow : Bool)
deriving DecidableEq, Repr

/-- `go`, with its calls recorded. -/
def observedGo (go : CallSite → (pointer : Nat) → (pinRoot : Bool) → σ → Except Fault (Bool × σ))
    (site : CallSite) (pointer : Nat) (pinRoot : Bool) (s : σ × List GoEvent) :
    Except Fault (Bool × (σ × List GoEvent)) :=
  go site pointer pinRoot s.1 >>= fun r => .ok (r.1, (r.2, s.2 ++ [.call site r.1]))

/-- The mark phase with an arbitrary `go`, observed. -/
def observed (heap : σ → Heap) (withMem : Memory → σ → σ)
    (go : CallSite → (pointer : Nat) → (pinRoot : Bool) → σ → Except Fault (Bool × σ))
    (fuel : Nat) : Collector (σ × List GoEvent) where
  heap s := heap s.1
  withMem m s := (withMem m s.1, s.2)
  go := observedGo go
  markAfterOverflow s :=
    markAfterOverflow (fun s => heap s.1) (observedGo go) fuel (s.1, s.2 ++ [.rescanBegin]) >>=
      fun r => .ok (r.1, (r.2.1, r.2.2 ++ [.rescanEnd r.1]))

/-- Every overflowing call is followed by a run of `mark_after_overflow` that reports no
overflow. -/
def Recovered : List GoEvent → Prop
  | [] => True
  | event :: later =>
      ((∃ site, event = .call site true) → [.rescanBegin, .rescanEnd false].Sublist later) ∧
        Recovered later

/-- Every overflowing call for a dereferenced or a fake root is followed by an overflowing call for
a root in a `StackMap`. -/
def Covered : List GoEvent → Prop
  | [] => True
  | event :: later =>
      (event = .call .dereferenced true ∨ event = .call .fakeRoot true →
        .call .stackMap true ∈ later) ∧ Covered later

/-- A sequence of calls from one place. -/
def Calls (site : CallSite) (events : List GoEvent) : Prop :=
  ∀ event ∈ events, ∃ overflow, event = .call site overflow

/-- Some call of the sequence overflowed. -/
def overflowed (site : CallSite) (events : List GoEvent) : Bool :=
  events.any fun event => event == .call site true

theorem overflowed_iff {site : CallSite} {events : List GoEvent} :
    overflowed site events = true ↔ .call site true ∈ events := by
  simp [overflowed]

/-- The runs of `mark_after_overflow` of one thread, which start if the flag is set. -/
inductive Rescans : Bool → List GoEvent → Prop where
  | none : Rescans false []
  | round (calls later : List GoEvent) : Calls .overflow calls →
      Rescans (overflowed .overflow calls) later →
        Rescans true
          (.rescanBegin :: (calls ++ .rescanEnd (overflowed .overflow calls) :: later))

/-- What is observed of a mark phase: for each thread the calls for its dereferenced roots, those
for its `StackMap` and the rescans these lead to, and then the calls for the fake roots. -/
inductive RunLog : List GoEvent → Prop where
  | fakeRoots (calls : List GoEvent) : Calls .fakeRoot calls → RunLog calls
  | thread (derefs roots rescans later : List GoEvent) : Calls .dereferenced derefs →
      Calls .stackMap roots → Rescans (overflowed .stackMap roots) rescans → RunLog later →
        RunLog (derefs ++ (roots ++ (rescans ++ later)))

theorem Calls.nil (site : CallSite) : Calls site [] := by
  simp [Calls]

theorem Calls.append {site : CallSite} {xs ys : List GoEvent} (first : Calls site xs)
    (second : Calls site ys) : Calls site (xs ++ ys) := by
  intro event mem
  rcases List.mem_append.mp mem with mem | mem
  · exact first event mem
  · exact second event mem

theorem Calls.single (site : CallSite) (overflow : Bool) : Calls site [.call site overflow] := by
  simp [Calls]

/-- The computation appends events that satisfy `shape` to the record. -/
def Records {α : Type} (log : List GoEvent) (record : α → List GoEvent)
    (shape : α → List GoEvent → Prop) (computation : Except Fault α) : Prop :=
  Yields (fun _ => True) (fun value => ∃ events, record value = log ++ events ∧ shape value events)
    computation

/-- Since the record was `log`, there have been calls from one place only, and the flag says whether
one of them has overflowed. -/
def Calling (site : CallSite) (log : List GoEvent) (s : Bool × σ × List GoEvent) : Prop :=
  ∃ events, s.2.2 = log ++ events ∧ Calls site events ∧ s.1 = overflowed site events

theorem Calling.start (site : CallSite) (s : σ × List GoEvent) : Calling site s.2 (false, s) :=
  ⟨[], (List.append_nil s.2).symm, Calls.nil site, rfl⟩

/-- One more call. -/
theorem Calling.call {site : CallSite} {log : List GoEvent} {s : Bool × σ × List GoEvent}
    (calling : Calling site log s) {r : Bool × σ × List GoEvent}
    (eq : r.2.2 = s.2.2 ++ [.call site r.1]) : Calling site log (s.1 || r.1, r.2) := by
  rcases calling with ⟨events, logEq, calls, flag⟩
  refine ⟨events ++ [.call site r.1], ?_, calls.append (Calls.single _ _), ?_⟩
  · dsimp only
    rw [eq, logEq, List.append_assoc]
  · rw [flag]
    cases r.1 with
    | true => simp [overflowed]
    | false => simp [overflowed]

section Steps

variable {heap : σ → Heap} {withMem : Memory → σ → σ}
  {go : CallSite → (pointer : Nat) → (pinRoot : Bool) → σ → Except Fault (Bool × σ)} {fuel : Nat}

theorem observedGo_records (site : CallSite) (pointer : Nat) (pinRoot : Bool)
    (s : σ × List GoEvent) :
    Records s.2 (fun r : Bool × σ × List GoEvent => r.2.2)
      (fun r events => events = [.call site r.1]) (observedGo go site pointer pinRoot s) := by
  unfold observedGo Records
  cases go site pointer pinRoot s.1 with
  | error fault => trivial
  | ok r => exact ⟨_, rfl, rfl⟩

/-- Restarting the traversal from a marked block. -/
theorem restart_calling {log : List GoEvent} (header data : Nat) (s : Bool × σ × List GoEvent)
    (calling : Calling .overflow log s) :
    Yields (fun _ => True) (Calling .overflow log)
      (restart (fun s => heap s.1) (observedGo go) header data s) := by
  unfold restart
  split
  · refine (observedGo_records .overflow data false s.2).bind ?_
    rintro r ⟨_, eq, rfl⟩
    exact calling.call eq
  · exact calling

/-- A run of `mark_after_overflow` reports whether one of its calls overflowed. -/
theorem markAfterOverflow_calling (s : σ × List GoEvent) :
    Yields (fun _ => True) (Calling .overflow s.2)
      (markAfterOverflow (fun s => heap s.1) (observedGo go) fuel s) := by
  unfold markAfterOverflow
  refine Yields.bind (walk_keeps ?_ fuel (Calling.start .overflow s)) ?_
  · exact fun b s calling =>
      ⟨trivial, (restart_calling (bigHeader b) (bigData b) s calling).bind fun r kept => kept⟩
  · intro s₁ calling
    refine walk_keeps ?_ fuel calling
    intro p s₂ calling
    refine ⟨trivial, Yields.bind (walk_keeps ?_ fuel calling) fun r kept => kept⟩
    exact fun b s calling =>
      ⟨trivial, (restart_calling b (blockData b) s calling).bind fun r kept => kept⟩

theorem observed_markAfterOverflow_records (s : σ × List GoEvent) :
    Records s.2 (fun r : Bool × σ × List GoEvent => r.2.2)
      (fun r events => ∃ calls,
        events = .rescanBegin :: (calls ++ [.rescanEnd (overflowed .overflow calls)]) ∧
          Calls .overflow calls ∧ r.1 = overflowed .overflow calls)
      ((observed heap withMem go fuel).markAfterOverflow s) := by
  refine (markAfterOverflow_calling (s.1, s.2 ++ [.rescanBegin])).bind ?_
  rintro r ⟨calls, eq, isCalls, flag⟩
  refine ⟨_, ?_, calls, rfl, isCalls, flag⟩
  dsimp only at eq ⊢
  simp only [eq, flag, List.append_assoc, List.cons_append, List.nil_append]

/-- The loop around `mark_after_overflow`. -/
theorem rescan_records (rounds : Nat) (stackOverflow : Bool) (s : σ × List GoEvent) :
    Records s.2 (fun r : σ × List GoEvent => r.2) (fun _ events => Rescans stackOverflow events)
      ((observed heap withMem go fuel).rescan rounds stackOverflow s) := by
  induction rounds generalizing stackOverflow s with
  | zero =>
      cases stackOverflow with
      | false => exact ⟨[], by simp, Rescans.none⟩
      | true => trivial
  | succ rounds ih =>
      cases stackOverflow with
      | false => exact ⟨[], by simp, Rescans.none⟩
      | true =>
          unfold Collector.rescan
          refine (observed_markAfterOverflow_records s).bind ?_
          rintro r ⟨_, eq, calls, rfl, isCalls, flag⟩
          refine (ih r.1 r.2).mono ?_
          rintro r' ⟨later, eq', rescans⟩
          rw [flag] at rescans
          refine ⟨_, ?_, Rescans.round calls later isCalls rescans⟩
          dsimp only at eq eq' ⊢
          simp only [eq', eq, List.append_assoc, List.cons_append, List.nil_append]

/-- The search in one chain makes at most one call. -/
theorem markChain_records (root : Nat) (fullGc : Bool) (chain : List RootHandler)
    (s : σ × List GoEvent) :
    Records s.2 (fun r : List RootHandler × σ × List GoEvent => r.2.2)
      (fun _ events => Calls .dereferenced events)
      ((observed heap withMem go fuel).markChain root fullGc chain s) := by
  induction chain generalizing s with
  | nil => exact ⟨[], by simp, Calls.nil _⟩
  | cons curr next ih =>
      unfold Collector.markChain
      split
      · split
        · split
          · refine (observedGo_records .dereferenced _ true s).bind ?_
            rintro r ⟨events, eq, rfl⟩
            exact ⟨_, eq, Calls.single _ _⟩
          · exact ⟨[], by simp, Calls.nil _⟩
        · exact ⟨[], by simp, Calls.nil _⟩
      · exact (ih s).bind fun r kept => kept

theorem markDereferencedRoot_records (root : Nat) (fullGc : Bool)
    (s : DerefRoots × σ × List GoEvent) :
    Records s.2.2 (fun r : DerefRoots × σ × List GoEvent => r.2.2)
      (fun _ events => Calls .dereferenced events)
      ((observed heap withMem go fuel).markDereferencedRoot root fullGc s) := by
  unfold Collector.markDereferencedRoot
  split
  · exact ⟨[], by simp, Calls.nil _⟩
  · exact (markChain_records root fullGc _ s.2).bind fun r kept => kept

theorem markStack_records (rounds : Nat) (fullGc : Bool) (words : List Nat)
    (s : DerefRoots × σ × List GoEvent) :
    Records s.2.2 (fun r : DerefRoots × σ × List GoEvent => r.2.2)
      (fun _ events => Calls .dereferenced events)
      ((observed heap withMem go fuel).markStack rounds fullGc words s) := by
  induction words generalizing s with
  | nil => exact ⟨[], by simp, Calls.nil _⟩
  | cons word words ih =>
      unfold Collector.markStack
      cases isHeapPointer rounds word ((observed heap withMem go fuel).heap s.2) with
      | error fault => trivial
      | ok inHeap =>
          cases inHeap with
          | false => exact ih s
          | true =>
              refine (markDereferencedRoot_records word fullGc s).bind ?_
              rintro r ⟨events, eq, calls⟩
              refine (ih r).mono ?_
              rintro r' ⟨events', eq', calls'⟩
              refine ⟨events ++ events', ?_, calls.append calls'⟩
              dsimp only at eq eq' ⊢
              rw [eq', eq, List.append_assoc]

theorem goFrom_records (site : CallSite) (addr : Nat) (s : σ × List GoEvent) :
    Records s.2 (fun r : Bool × σ × List GoEvent => r.2.2)
      (fun r events => events = [.call site r.1])
      ((observed heap withMem go fuel).goFrom site addr s) :=
  observedGo_records site _ false _

theorem markStackMap_calling {log : List GoEvent} (roots : List Nat) (s : Bool × σ × List GoEvent)
    (calling : Calling .stackMap log s) :
    Yields (fun _ => True) (Calling .stackMap log)
      ((observed heap withMem go fuel).markStackMap roots s) := by
  induction roots generalizing s with
  | nil => exact calling
  | cons root roots ih =>
      unfold Collector.markStackMap
      refine (goFrom_records .stackMap root s.2).bind ?_
      rintro r ⟨_, eq, rfl⟩
      exact ih _ (calling.call eq)

theorem markNode_records (fakeRoots : FakeRoots) (s : σ × List GoEvent) :
    Records s.2 (fun r : σ × List GoEvent => r.2) (fun _ events => Calls .fakeRoot events)
      ((observed heap withMem go fuel).markNode fakeRoots s) := by
  induction fakeRoots generalizing s with
  | null => exact ⟨[], by simp, Calls.nil _⟩
  | node self addr height left right leftIh rightIh =>
      unfold Collector.markNode
      refine (goFrom_records .fakeRoot addr _).bind ?_
      rintro r ⟨_, eq, rfl⟩
      refine (leftIh r.2).bind ?_
      rintro r₁ ⟨events₁, eq₁, calls₁⟩
      refine (rightIh r₁).mono ?_
      rintro r₂ ⟨events₂, eq₂, calls₂⟩
      refine ⟨[.call .fakeRoot r.1] ++ events₁ ++ events₂, ?_,
        ((Calls.single _ _).append calls₁).append calls₂⟩
      dsimp only at eq eq₁ eq₂ ⊢
      simp only [eq₂, eq₁, eq, observed, List.append_assoc]

/-- One thread. -/
theorem markThread_records (rounds : Nat) (thread : ThreadHandler)
    (s : DerefRoots × σ × List GoEvent) :
    Records s.2.2 (fun r : DerefRoots × σ × List GoEvent => r.2.2)
      (fun _ events => ∃ derefs roots rescans, events = derefs ++ (roots ++ rescans) ∧
        Calls .dereferenced derefs ∧ Calls .stackMap roots ∧
          Rescans (overflowed .stackMap roots) rescans)
      ((observed heap withMem go fuel).markThread rounds thread s) := by
  unfold Collector.markThread
  refine (markStack_records rounds true thread.stackWords s).bind ?_
  rintro r ⟨derefs, eq, areDerefs⟩
  refine (markStackMap_calling thread.stack (false, r.2) (Calling.start .stackMap r.2)).bind ?_
  rintro r₁ ⟨roots, eq₁, areRoots, flag⟩
  refine (rescan_records rounds r₁.1 r₁.2).bind ?_
  rintro r₂ ⟨rescans, eq₂, areRescans⟩
  rw [flag] at areRescans
  refine ⟨_, ?_, derefs, roots, rescans, rfl, areDerefs, areRoots, areRescans⟩
  dsimp only at eq eq₁ eq₂ ⊢
  rw [eq₂, eq₁, eq, List.append_assoc, List.append_assoc]

/-- A mark phase, whatever `go` does, is observed as a run log. -/
theorem markRoots_records (rounds : Nat) (threads : List ThreadHandler) (fakeRoots : FakeRoots)
    (s : DerefRoots × σ × List GoEvent) :
    Records s.2.2 (fun r : DerefRoots × σ × List GoEvent => r.2.2) (fun _ events => RunLog events)
      ((observed heap withMem go fuel).markRoots rounds threads fakeRoots s) := by
  unfold Collector.markRoots
  induction threads generalizing s with
  | nil =>
      refine (markNode_records fakeRoots s.2).bind ?_
      rintro r ⟨events, eq, calls⟩
      exact ⟨events, eq, RunLog.fakeRoots events calls⟩
  | cons thread threads ih =>
      rw [Collector.markThreads, bind_assoc]
      refine (markThread_records rounds thread s).bind ?_
      rintro r ⟨_, eq, derefs, roots, rescans, rfl, areDerefs, areRoots, areRescans⟩
      refine (ih r).mono ?_
      rintro r' ⟨later, eq', isLog⟩
      refine ⟨_, ?_, RunLog.thread derefs roots rescans later areDerefs areRoots areRescans isLog⟩
      dsimp only at eq eq' ⊢
      rw [eq', eq]
      simp only [List.append_assoc]

end Steps

theorem recovered_cons_of_ne {event : GoEvent} {later : List GoEvent}
    (other : ∀ site, event ≠ .call site true) : Recovered (event :: later) ↔ Recovered later := by
  simp [Recovered, other]

/-- A sequence of calls contains no begin of a rescan. -/
theorem Calls.recovery_append {site : CallSite} {calls : List GoEvent} (isCalls : Calls site calls)
    (later : List GoEvent) : [.rescanBegin, .rescanEnd false].Sublist (calls ++ later) ↔
      [GoEvent.rescanBegin, .rescanEnd false].Sublist later := by
  induction calls with
  | nil => rfl
  | cons event calls ih =>
      rcases isCalls event (by simp) with ⟨overflow, rfl⟩
      rw [List.cons_append, List.sublist_cons_iff]
      simpa using ih fun event mem => isCalls event (by simp [mem])

/-- Calls are recovered if a recovery follows them. -/
theorem Calls.recovered_append {site : CallSite} {calls : List GoEvent} (isCalls : Calls site calls)
    (later : List GoEvent) : Recovered (calls ++ later) ↔
      (overflowed site calls = true → [.rescanBegin, .rescanEnd false].Sublist later) ∧
        Recovered later := by
  induction calls with
  | nil => simp [overflowed]
  | cons event calls ih =>
      have rest : Calls site calls := fun event mem => isCalls event (by simp [mem])
      rcases isCalls event (by simp) with ⟨overflow, rfl⟩
      rw [List.cons_append, Recovered, rest.recovery_append, ih rest]
      cases overflow with
      | false => simp [overflowed]
      | true =>
          simp only [overflowed, List.any_cons, BEq.rfl, Bool.true_or, forall_const]
          constructor
          · exact fun holds => ⟨holds.1 ⟨site, rfl⟩, holds.2.2⟩
          · exact fun holds => ⟨fun _ => holds.1, fun _ => holds.1, holds.2⟩

/-- Calls for dereferenced and fake roots are covered if a call for a `StackMap` root follows. -/
theorem Calls.covered_append {site : CallSite} {calls : List GoEvent} (isCalls : Calls site calls)
    (isRoot : site = .dereferenced ∨ site = .fakeRoot) (later : List GoEvent) :
    Covered (calls ++ later) ↔
      (overflowed site calls = true → .call .stackMap true ∈ later) ∧ Covered later := by
  induction calls with
  | nil => simp [overflowed]
  | cons event calls ih =>
      have rest : Calls site calls := fun event mem => isCalls event (by simp [mem])
      rcases isCalls event (by simp) with ⟨overflow, rfl⟩
      have absent : .call .stackMap true ∈ calls ++ later ↔ .call .stackMap true ∈ later := by
        rw [List.mem_append, or_iff_right]
        intro mem
        rcases rest _ mem with ⟨overflow', same⟩
        simp only [GoEvent.call.injEq] at same
        rcases isRoot with isRoot | isRoot
        · rw [isRoot] at same
          exact absurd same.1 (by decide)
        · rw [isRoot] at same
          exact absurd same.1 (by decide)
      rw [List.cons_append, Covered, absent, ih rest]
      cases overflow with
      | false => simp [overflowed]
      | true =>
          simp only [overflowed, List.any_cons, BEq.rfl, Bool.true_or, forall_const]
          have applies : GoEvent.call site true = .call .dereferenced true ∨
              GoEvent.call site true = .call .fakeRoot true := by
            rcases isRoot with rfl | rfl
            · exact Or.inl rfl
            · exact Or.inr rfl
          constructor
          · exact fun holds => ⟨holds.1 applies, holds.2.2⟩
          · exact fun holds => ⟨fun _ => holds.1, fun _ => holds.1, holds.2⟩

/-- Events other than calls for dereferenced and fake roots need no cover. -/
theorem covered_append_of_other {events : List GoEvent}
    (other : ∀ event ∈ events, event ≠ .call .dereferenced true ∧ event ≠ .call .fakeRoot true)
    (later : List GoEvent) : Covered (events ++ later) ↔ Covered later := by
  induction events with
  | nil => rfl
  | cons event events ih =>
      have rest := ih fun event mem => other event (by simp [mem])
      rcases other event (by simp) with ⟨notDereferenced, notFake⟩
      rw [List.cons_append, Covered, rest]
      simp [notDereferenced, notFake]

theorem Rescans.other {flag : Bool} {events : List GoEvent} (rescans : Rescans flag events) :
    ∀ event ∈ events, ∀ site, site ≠ .overflow → event ≠ .call site true := by
  induction rescans with
  | none => simp
  | round calls later isCalls _ ih =>
      intro event mem site different
      simp only [List.mem_cons, List.mem_append] at mem
      rcases mem with rfl | mem | rfl | mem
      · simp
      · rcases isCalls event mem with ⟨overflow, rfl⟩
        simp [different.symm]
      · simp
      · exact ih event mem site different

/-- When the flag is set, the rescans begin, and end without an overflow. -/
theorem Rescans.recovery {events : List GoEvent} (rescans : Rescans true events)
    (later : List GoEvent) : [.rescanBegin, .rescanEnd false].Sublist (events ++ later) := by
  generalize flagEq : true = flag at rescans
  induction rescans with
  | none => simp at flagEq
  | round calls rest isCalls _ ih =>
      cases again : overflowed .overflow calls with
      | false =>
          simp only [List.cons_append, List.append_assoc, List.cons_sublist_cons,
            List.singleton_sublist]
          simp
      | true =>
          have recovered := ih again.symm
          simp only [List.cons_append, List.append_assoc]
          apply List.Sublist.cons
          apply List.sublist_append_of_sublist_right
          exact List.Sublist.cons _ recovered

/-- Every overflow during the rescans is recovered. -/
theorem Rescans.recovered {flag : Bool} {events : List GoEvent} (rescans : Rescans flag events)
    (later : List GoEvent) : Recovered (events ++ later) ↔ Recovered later := by
  induction rescans with
  | none => rfl
  | round calls rest isCalls again ih =>
      simp only [List.cons_append, List.append_assoc]
      rw [recovered_cons_of_ne (by simp), isCalls.recovered_append,
        recovered_cons_of_ne (by simp), ih]
      constructor
      · exact fun holds => holds.2
      · refine fun holds => ⟨fun overflow => ?_, holds⟩
        rw [overflow] at again
        exact List.Sublist.cons _ (again.recovery later)

/-- A rescan follows exactly when an overflowing call for a `StackMap` root follows. -/
theorem RunLog.recovery_iff {log : List GoEvent} (isLog : RunLog log) :
    [.rescanBegin, .rescanEnd false].Sublist log ↔ .call .stackMap true ∈ log := by
  induction isLog with
  | fakeRoots calls isCalls =>
      have absent := isCalls.recovery_append []
      rw [List.append_nil] at absent
      rw [absent]
      simp only [List.sublist_nil, reduceCtorEq, false_iff]
      intro mem
      rcases isCalls _ mem with ⟨overflow, same⟩
      simp at same
  | thread derefs roots rescans later areDerefs areRoots areRescans _ ih =>
      rw [areDerefs.recovery_append, areRoots.recovery_append]
      have notDeref : .call .stackMap true ∉ derefs := by
        intro mem
        rcases areDerefs _ mem with ⟨overflow, same⟩
        simp at same
      have notRescan : .call .stackMap true ∉ rescans :=
        fun mem => areRescans.other _ mem .stackMap (by decide) rfl
      simp only [List.mem_append, notDeref, notRescan, false_or]
      cases flag : overflowed .stackMap roots with
      | true =>
          rw [flag] at areRescans
          have inRoots : .call .stackMap true ∈ roots := overflowed_iff.mp flag
          simp [areRescans.recovery later, inRoots]
      | false =>
          rw [flag] at areRescans
          have notRoots : .call .stackMap true ∉ roots := by
            rw [← overflowed_iff, flag]
            decide
          cases areRescans
          simpa [notRoots] using ih

/-- In a run log all overflows are recovered exactly when those of dereferenced and fake roots are
covered by an overflow of a `StackMap` root. -/
theorem RunLog.recovered_iff {log : List GoEvent} (isLog : RunLog log) :
    Recovered log ↔ Covered log := by
  induction isLog with
  | fakeRoots calls isCalls =>
      have recovered := isCalls.recovered_append []
      have covered := isCalls.covered_append (Or.inr rfl) []
      rw [List.append_nil] at recovered covered
      rw [recovered, covered]
      simp [Recovered, Covered]
  | thread derefs roots rescans later areDerefs areRoots areRescans isLog ih =>
      have follows : [.rescanBegin, .rescanEnd false].Sublist (roots ++ (rescans ++ later)) ↔
          .call .stackMap true ∈ roots ++ (rescans ++ later) := by
        have whole := (RunLog.thread [] roots rescans later (Calls.nil _) areRoots areRescans
          isLog).recovery_iff
        simpa using whole
      have rootsOther : ∀ event ∈ roots,
          event ≠ .call .dereferenced true ∧ event ≠ .call .fakeRoot true := by
        intro event mem
        rcases areRoots event mem with ⟨overflow, rfl⟩
        simp
      have rescansOther : ∀ event ∈ rescans,
          event ≠ .call .dereferenced true ∧ event ≠ .call .fakeRoot true :=
        fun event mem => ⟨areRescans.other event mem _ (by decide),
          areRescans.other event mem _ (by decide)⟩
      rw [areDerefs.recovered_append, areDerefs.covered_append (Or.inl rfl), follows,
        covered_append_of_other rootsOther, covered_append_of_other rescansOther,
        areRoots.recovered_append, areRescans.recovered, ih]
      constructor
      · exact fun holds => ⟨holds.1, holds.2.2⟩
      · refine fun holds => ⟨holds.1, fun overflow => ?_, holds.2⟩
        rw [overflow] at areRescans
        exact areRescans.recovery later

/-- Whatever the calls of `go` report, at the end of the mark phase every overflow has been
recovered if and only if each overflowing call for a dereferenced or a fake root was followed by an
overflowing call for a root in a `StackMap`. -/
theorem markRoots_recovered_iff (heap : σ → Heap) (withMem : Memory → σ → σ)
    (go : CallSite → (pointer : Nat) → (pinRoot : Bool) → σ → Except Fault (Bool × σ))
    (fuel : Nat) (threads : List ThreadHandler) (fakeRoots : FakeRoots)
    (table : DerefRoots) (s : σ) :
    Yields (fun _ => True) (fun final => Recovered final.2.2 ↔ Covered final.2.2)
      ((observed heap withMem go fuel).markRoots fuel threads fakeRoots (table, s, [])) := by
  refine (markRoots_records fuel threads fakeRoots (table, s, [])).mono ?_
  rintro final ⟨events, eq, isLog⟩
  rw [show final.2.2 = events from eq]
  exact isLog.recovered_iff

/-- A phase in which only the traversal from the fake root overflows. -/
theorem markRoots_overflow_at_fakeRoot : Yields (fun _ => False)
    (fun final => final.2.2 = [.call .stackMap false, .call .fakeRoot true])
    ((observed id (fun m h => { h with mem := m })
      (fun site _ _ (h : Heap) => .ok (site == .fakeRoot, h)) 10).markRoots 10 [⟨[], [133120]⟩]
        (.node 262144 133128 1 .null .null) ({}, { mem := fun _ => 0 }, [])) := by
  decide

theorem markRoots_loses_overflow :
    ∃ final, (observed id (fun m h => { h with mem := m })
        (fun site _ _ (h : Heap) => .ok (site == .fakeRoot, h)) 10).markRoots 10 [⟨[], [133120]⟩]
          (.node 262144 133128 1 .null .null) ({}, { mem := fun _ => 0 }, []) = .ok final ∧
      ¬Recovered final.2.2 := by
  rcases markRoots_overflow_at_fakeRoot.total with ⟨final, eq, log⟩
  refine ⟨final, eq, ?_⟩
  rw [log]
  simp [Recovered]

end PreciseGc
