import PreciseGc.Foundation.Outcome

/-!
# Recorded computations

A recorded computation is a computation that may fault together with the list
of what it does on its way, which is there even if it stops with a fault.
`Judged` says that a condition decides whether all entries of the record are
good, and that the computation returns when they are.
-/

namespace Foundation

universe u v w

variable {ε : Type u} {α : Type v} {β : Type v} {τ : Type w}

/-- The record of a continuation, which runs only if the computation returns. -/
def after (computation : Except ε α) (record : α → List τ) : List τ :=
  match computation with
  | .ok value => record value
  | .error _ => []

@[simp]
theorem after_ok (value : α) (record : α → List τ) :
    after (Except.ok value : Except ε α) record = record value := rfl

@[simp]
theorem after_error (fault : ε) (record : α → List τ) :
    after (Except.error fault : Except ε α) record = [] := rfl

/-- All entries of the record are good if and only if the condition holds, and then the computation
returns a value satisfying `post`. -/
def Judged (good : τ → Prop) (condition : Prop) (post : α → Prop) (record : List τ)
    (computation : Except ε α) : Prop :=
  (condition → (∀ entry ∈ record, good entry) ∧ ∃ value, computation = .ok value ∧ post value) ∧
    (¬condition → ∃ entry ∈ record, ¬good entry)

namespace Judged

variable {good : τ → Prop} {condition : Prop} {post : α → Prop} {record : List τ}
  {computation : Except ε α}

theorem good_iff (judged : Judged good condition post record computation) :
    (∀ entry ∈ record, good entry) ↔ condition := by
  constructor
  · intro allGood
    by_contra fails
    rcases judged.2 fails with ⟨entry, mem, bad⟩
    exact bad (allGood entry mem)
  · exact fun holds => (judged.1 holds).1

/-- A computation that returns and records good entries only. -/
theorem clean {value : α} (entries : ∀ entry ∈ record, good entry)
    (returns : computation = .ok value) (holds : post value) :
    Judged good True post record computation :=
  ⟨fun _ => ⟨entries, value, returns, holds⟩, fun never => absurd trivial never⟩

/-- A bad entry is recorded. -/
theorem spoilt (bad : ∃ entry ∈ record, ¬good entry) :
    Judged good False post record computation :=
  ⟨False.elim, fun _ => bad⟩

theorem congr (judged : Judged good condition post record computation) {condition' : Prop}
    (same : condition ↔ condition') : Judged good condition' post record computation :=
  ⟨fun holds => judged.1 (same.mpr holds), fun fails => judged.2 fun holds => fails (same.mp holds)⟩

theorem mono (judged : Judged good condition post record computation) {post' : α → Prop}
    (weaker : ∀ value, post value → post' value) :
    Judged good condition post' record computation := by
  refine ⟨fun holds => ?_, judged.2⟩
  rcases judged.1 holds with ⟨entries, value, returns, reached⟩
  exact ⟨entries, value, returns, weaker value reached⟩

/-- A continuation that records nothing and returns. -/
theorem map (judged : Judged good condition post record computation) {postNext : β → Prop}
    {f : α → β} (holds : ∀ value, post value → postNext (f value)) :
    Judged good condition postNext record (computation >>= fun value => .ok (f value)) := by
  refine ⟨fun allowed => ?_, judged.2⟩
  rcases judged.1 allowed with ⟨entries, value, returns, reached⟩
  subst returns
  exact ⟨entries, f value, rfl, holds value reached⟩

/-- Sequencing: the continuation is judged only when the first computation returns. -/
theorem bind (judged : Judged good condition post record computation) {postNext : β → Prop}
    {conditionNext : α → Prop} {recordNext : α → List τ} {next : α → Except ε β}
    (rest : ∀ value, computation = .ok value → post value →
      Judged good (conditionNext value) postNext (recordNext value) (next value)) :
    Judged good (condition ∧ ∀ value, computation = .ok value → conditionNext value) postNext
      (record ++ after computation recordNext) (computation >>= next) := by
  constructor
  · rintro ⟨holds, later⟩
    rcases judged.1 holds with ⟨entries, value, returns, reached⟩
    rcases (rest value returns reached).1 (later value returns) with ⟨entriesNext, final⟩
    subst returns
    refine ⟨fun entry mem => ?_, final⟩
    rcases List.mem_append.mp mem with mem | mem
    · exact entries entry mem
    · exact entriesNext entry mem
  · intro fails
    by_cases holds : condition
    · rcases judged.1 holds with ⟨_, value, returns, reached⟩
      have failsNext : ¬conditionNext value := by
        intro holdsNext
        apply fails
        refine ⟨holds, fun other eq => ?_⟩
        rw [returns] at eq
        cases eq
        exact holdsNext
      rcases (rest value returns reached).2 failsNext with ⟨entry, mem, bad⟩
      subst returns
      exact ⟨entry, List.mem_append_right _ mem, bad⟩
    · rcases judged.2 holds with ⟨entry, mem, bad⟩
      exact ⟨entry, List.mem_append_left _ mem, bad⟩

/-- Sequencing with a continuation that is judged by one condition, whatever the value. -/
theorem andThen (judged : Judged good condition post record computation) {postNext : β → Prop}
    {conditionNext : Prop} {recordNext : α → List τ} {next : α → Except ε β}
    (rest : ∀ value, computation = .ok value → post value →
      Judged good conditionNext postNext (recordNext value) (next value)) :
    Judged good (condition ∧ conditionNext) postNext
      (record ++ after computation recordNext) (computation >>= next) := by
  apply (judged.bind rest).congr
  constructor
  · rintro ⟨holds, later⟩
    rcases judged.1 holds with ⟨_, value, returns, _⟩
    exact ⟨holds, later value returns⟩
  · exact fun both => ⟨both.1, fun _ _ => both.2⟩

end Judged

section Effects

variable {ω : Type v} {effect : List τ → ω → ω → Prop}

/-- The effect of a sequence, when the record allows the effect of each part. -/
theorem Yields.bind_within {view : α → ω} {viewNext : β → ω} {start : ω} {record : List τ}
    {recordNext : α → List τ} {computation : Except ε α} {next : α → Except ε β}
    (trans : ∀ xs ys s s' s'', effect xs s s' → effect ys s' s'' → effect (xs ++ ys) s s'')
    (first : Yields (fun _ => True) (fun value => effect record start (view value)) computation)
    (rest : ∀ value, Yields (fun _ => True)
      (fun result => effect (recordNext value) (view value) (viewNext result)) (next value)) :
    Yields (fun _ => True)
      (fun result => effect (record ++ after computation recordNext) start (viewNext result))
      (computation >>= next) := by
  cases computation with
  | error fault => trivial
  | ok value =>
      apply (rest value).mono
      intro result within
      exact trans _ _ _ _ _ first within

end Effects

section Walk

variable {κ : Type v} {σ : Type v} {ι : Type w} {stop : κ → σ → Bool}
  {body : κ → σ → Except ε (κ × σ)} {record : κ → σ → List τ} {exhausted : ε} {good : τ → Prop}
  {fuel : Nat} {cursor : κ} {state : σ}

/-- The record of `walk`, put together from those of its iterations. -/
def walkRecord (stop : κ → σ → Bool) (body : κ → σ → Except ε (κ × σ)) (record : κ → σ → List τ) :
    Nat → κ → σ → List τ
  | 0, _, _ => []
  | fuel + 1, cursor, state =>
      if stop cursor state then []
      else
        record cursor state ++
          after (body cursor state) fun next => walkRecord stop body record fuel next.1 next.2

/-- All entries of a loop are good when those of its iterations are. -/
theorem walkRecord_good (invariant : κ → σ → Prop)
    (step : ∀ cursor state, invariant cursor state → stop cursor state = false →
      (∀ entry ∈ record cursor state, good entry) ∧
        Yields (fun _ => True) (fun next => invariant next.1 next.2) (body cursor state))
    (start : invariant cursor state) :
    ∀ entry ∈ walkRecord stop body record fuel cursor state, good entry := by
  induction fuel generalizing cursor state with
  | zero => simp [walkRecord]
  | succ fuel ih =>
      rw [walkRecord]
      cases running : stop cursor state with
      | true => simp
      | false =>
          rcases step cursor state start running with ⟨entries, bodyYields⟩
          intro entry mem
          rcases List.mem_append.mp mem with mem | mem
          · exact entries entry mem
          · cases eq : body cursor state with
            | error fault => simp [eq] at mem
            | ok next =>
                rw [eq] at mem
                exact ih (bodyYields.of_ok eq) entry mem

/-- A loop has the effect that its record allows. -/
theorem walk_within {ω : Type v} {effect : List τ → ω → ω → Prop} {view : σ → ω}
    (refl : ∀ s, effect [] s s)
    (trans : ∀ xs ys s s' s'', effect xs s s' → effect ys s' s'' → effect (xs ++ ys) s s'')
    (step : ∀ cursor state, Yields (fun _ => True)
      (fun next => effect (record cursor state) (view state) (view next.2)) (body cursor state)) :
    Yields (fun _ => True)
      (fun final => effect (walkRecord stop body record fuel cursor state)
        (view state) (view final))
      (walk stop body exhausted fuel cursor state) := by
  induction fuel generalizing cursor state with
  | zero => trivial
  | succ fuel ih =>
      rw [walk, walkRecord]
      split
      · exact refl (view state)
      · exact Yields.bind_within trans (step cursor state) fun next => ih

/-- A search walks along `items` and leaves the state alone up to the first item of interest, which
records a bad entry; any other item is passed. -/
structure Searching (stop : κ → σ → Bool) (body : κ → σ → Except ε (κ × σ))
    (record : κ → σ → List τ) (good : τ → Prop) (interest : ι → Prop) (state : σ)
    (place : List ι → κ → Prop) : Prop where
  finished : ∀ cursor, place [] cursor → stop cursor state = true
  running : ∀ item items cursor, place (item :: items) cursor → stop cursor state = false
  finds : ∀ item items cursor, place (item :: items) cursor → interest item →
    ∃ entry ∈ record cursor state, ¬good entry
  passes : ∀ item items cursor, place (item :: items) cursor → ¬interest item →
    ∃ cursor', body cursor state = .ok (cursor', state) ∧ place items cursor'

variable {interest : ι → Prop} {place : List ι → κ → Prop} {items : List ι}

theorem Searching.walk_passes
    (searching : Searching stop body record good interest state place)
    (enough : items.length < fuel) (start : place items cursor)
    (none : ∀ item ∈ items, ¬interest item) :
    walk stop body exhausted fuel cursor state = .ok state := by
  induction fuel generalizing items cursor with
  | zero => omega
  | succ fuel ih =>
      rw [walk]
      cases items with
      | nil => rw [searching.finished cursor start, if_pos rfl]
      | cons item items =>
          rw [searching.running item items cursor start, if_neg (by simp)]
          rcases searching.passes item items cursor start (none item (by simp)) with
            ⟨cursor', eq, there⟩
          have enough' : items.length < fuel := Nat.lt_of_succ_lt_succ enough
          rw [eq]
          exact ih enough' there fun item mem => none item (by simp [mem])

/-- A search that passes everything records nothing, if what it passes records nothing. -/
theorem Searching.walkRecord_passes
    (searching : Searching stop body record good interest state place)
    (silent : ∀ item items cursor, place (item :: items) cursor → ¬interest item →
      record cursor state = [])
    (start : place items cursor) (none : ∀ item ∈ items, ¬interest item) :
    walkRecord stop body record fuel cursor state = [] := by
  induction fuel generalizing items cursor with
  | zero => rfl
  | succ fuel ih =>
      rw [walkRecord]
      cases items with
      | nil => rw [searching.finished cursor start, if_pos rfl]
      | cons item items =>
          have dull := none item (by simp)
          rw [searching.running item items cursor start, if_neg (by simp)]
          rcases searching.passes item items cursor start dull with ⟨cursor', eq, there⟩
          rw [silent item items cursor start dull, eq]
          exact ih there fun item mem => none item (by simp [mem])

theorem Searching.walkRecord_finds
    (searching : Searching stop body record good interest state place)
    (enough : items.length < fuel) (start : place items cursor)
    (some : ∃ item ∈ items, interest item) :
    ∃ entry ∈ walkRecord stop body record fuel cursor state, ¬good entry := by
  induction fuel generalizing items cursor with
  | zero => omega
  | succ fuel ih =>
      rw [walkRecord]
      cases items with
      | nil => simp at some
      | cons item items =>
          rw [searching.running item items cursor start, if_neg (by simp)]
          by_cases interesting : interest item
          · rcases searching.finds item items cursor start interesting with ⟨entry, mem, bad⟩
            exact ⟨entry, List.mem_append_left _ mem, bad⟩
          · rcases searching.passes item items cursor start interesting with ⟨cursor', eq, there⟩
            have enough' : items.length < fuel := Nat.lt_of_succ_lt_succ enough
            have later : ∃ item ∈ items, interest item := by
              rcases some with ⟨other, mem, holds⟩
              rcases List.mem_cons.mp mem with rfl | mem
              · exact absurd holds interesting
              · exact ⟨other, mem, holds⟩
            rcases ih enough' there later with ⟨entry, mem, bad⟩
            refine ⟨entry, List.mem_append_right _ ?_, bad⟩
            rw [eq]
            exact mem

end Walk

section Performs

variable {ω : Type v} {ready : ω → Prop} {good : ω → τ → Prop} {effect : List τ → ω → ω → Prop}

/-- The effect of a record composes along the record, and what is good after an effect counts as
good before it. -/
structure EffectLaws (ready : ω → Prop) (good : ω → τ → Prop) (effect : List τ → ω → ω → Prop) :
    Prop where
  refl : ∀ s, ready s → effect [] s s
  trans : ∀ xs ys s s' s'', effect xs s s' → effect ys s' s'' → effect (xs ++ ys) s s''
  back : ∀ xs s s' entry, effect xs s s' → good s' entry → good s entry
  next : ∀ xs s s', effect xs s s' → ready s'

/-- From `start` on, all entries of the record are good, and a result has the effect of the
record. -/
structure Performs (good : ω → τ → Prop) (effect : List τ → ω → ω → Prop) (start : ω)
    (view : α → ω) (record : List τ) (computation : Except ε α) : Prop where
  entries : ∀ entry ∈ record, good start entry
  result : Yields (fun _ => True) (fun value => effect record start (view value)) computation

variable {start : ω} {view : α → ω} {viewNext : β → ω} {record : List τ}
  {recordNext : α → List τ} {computation : Except ε α} {next : α → Except ε β}

theorem Performs.mono {good' : ω → τ → Prop} {effect' : List τ → ω → ω → Prop}
    (performed : Performs good effect start view record computation)
    (entries : ∀ entry, good start entry → good' start entry)
    (effects : ∀ xs s, effect xs start s → effect' xs start s) :
    Performs good' effect' start view record computation where
  entries entry mem := entries entry (performed.entries entry mem)
  result := performed.result.mono fun _ done => effects _ _ done

/-- A computation that records nothing. -/
theorem Performs.quiet
    (silent : Yields (fun _ => True) (fun value => effect [] start (view value)) computation) :
    Performs good effect start view [] computation where
  entries := by simp
  result := silent

theorem Performs.bind (laws : EffectLaws ready good effect)
    (first : Performs good effect start view record computation)
    (rest : ∀ value, ready (view value) →
      Performs good effect (view value) viewNext (recordNext value) (next value)) :
    Performs good effect start viewNext (record ++ after computation recordNext)
      (computation >>= next) := by
  cases computation with
  | error fault => exact ⟨by simpa using first.entries, trivial⟩
  | ok value =>
      have reached : effect record start (view value) := first.result
      have later := rest value (laws.next _ _ _ reached)
      constructor
      · intro entry mem
        rcases List.mem_append.mp mem with early | late
        · exact first.entries entry early
        · exact laws.back _ _ _ entry reached (later.entries entry late)
      · exact later.result.mono fun result done => laws.trans _ _ _ _ _ reached done

/-- A continuation that records nothing. -/
theorem Performs.andThen (laws : EffectLaws ready good effect)
    (first : Performs good effect start view record computation)
    (rest : ∀ value, ready (view value) → Yields (fun _ => True)
      (fun result => effect [] (view value) (viewNext result)) (next value)) :
    Performs good effect start viewNext record (computation >>= next) := by
  have sequence : Performs good effect start viewNext
      (record ++ after computation fun _ => []) (computation >>= next) :=
    first.bind laws fun value here => Performs.quiet (rest value here)
  have nothing : after computation (fun _ => ([] : List τ)) = [] := by
    cases computation <;> rfl
  rwa [nothing, List.append_nil] at sequence

/-- A loop performs what its iterations perform. -/
theorem Performs.walk {κ σ : Type v} {stop : κ → σ → Bool} {body : κ → σ → Except ε (κ × σ)}
    {recordStep : κ → σ → List τ} {exhausted : ε} {view : σ → ω}
    (laws : EffectLaws ready good effect)
    (step : ∀ cursor state, ready (view state) →
      Performs good effect (view state) (fun next => view next.2) (recordStep cursor state)
        (body cursor state)) {fuel : Nat} {cursor : κ} {state : σ} (start : ready (view state)) :
    Performs good effect (view state) view (walkRecord stop body recordStep fuel cursor state)
      (Foundation.walk stop body exhausted fuel cursor state) := by
  induction fuel generalizing cursor state with
  | zero => exact Performs.quiet trivial
  | succ fuel ih =>
      rw [Foundation.walk, walkRecord]
      split
      · exact Performs.quiet (laws.refl _ start)
      · exact (step cursor state start).bind laws fun next here => ih here

end Performs

end Foundation
