import Mathlib.Logic.Function.Basic
import Mathlib.Tactic.Common
import Mathlib.Tactic.Simps.Basic
import PreciseGc.Foundation.Transition

/-!
# Object stores

A store holds objects with contents and slots, and roots from which a client comes to
them; a slot or a root refers to an object or is null.  A client sees the objects
only through access paths: it reads contents, finds null, and compares references.
Two stores are alike if no client can tell them apart, which is so exactly if the
accessible objects of one are those of the other under new names.

`Ideal` is a store in which no object is ever moved or taken away.  A system whose
silent steps keep its store alike, and whose other steps perform the actions of its
client, is at every moment alike to the ideal store of these actions.
-/

namespace Foundation

variable {Ref Ref' Ref'' Root Slot Content : Type*}

/-- Objects with contents and slots, and roots. -/
@[ext]
structure Store (Ref Root Slot Content : Type*) where
  content : Ref → Content
  slot : Ref → Slot → Option Ref
  root : Root → Option Ref

/-- A root, and the slots to follow from there. -/
structure AccessPath (Root Slot : Type*) where
  root : Root
  slots : List Slot

/-- One more slot. -/
def AccessPath.snoc (path : AccessPath Root Slot) (k : Slot) : AccessPath Root Slot :=
  { path with slots := path.slots ++ [k] }

namespace Store

variable (s : Store Ref Root Slot Content)

/-- The object behind the slots, one after the other. -/
def descend : Option Ref → List Slot → Option Ref
  | ref, [] => ref
  | ref, k :: slots => descend (ref.bind fun b => s.slot b k) slots

/-- The object behind an access path, if no reference on it is null. -/
def follow (path : AccessPath Root Slot) : Option Ref := s.descend (s.root path.root) path.slots

/-- Some access path leads to the object. -/
inductive Accessible : Ref → Prop where
  | root {r : Root} {b : Ref} : s.root r = some b → Accessible b
  | slot {b d : Ref} {k : Slot} : Accessible b → s.slot b k = some d → Accessible d

variable {s} {s' : Store Ref' Root Slot Content} {s'' : Store Ref'' Root Slot Content}
  {f : Ref → Ref'} {b d : Ref} {r : Root} {k : Slot}

theorem descend_snoc (ref : Option Ref) (slots : List Slot) :
    s.descend ref (slots ++ [k]) = (s.descend ref slots).bind fun b => s.slot b k := by
  induction slots generalizing ref with
  | nil => rfl
  | cons first slots ih => exact ih _

theorem follow_snoc (path : AccessPath Root Slot) :
    s.follow (path.snoc k) = (s.follow path).bind fun b => s.slot b k :=
  descend_snoc _ path.slots

theorem accessible_of_descend {ref : Option Ref} (accessible : ∀ b, ref = some b → s.Accessible b)
    (slots : List Slot) (led : s.descend ref slots = some d) : s.Accessible d := by
  induction slots generalizing ref with
  | nil => exact accessible d led
  | cons k slots ih =>
      refine ih ?_ led
      intro e next
      rcases Option.bind_eq_some_iff.mp next with ⟨b, refEq, last⟩
      exact (accessible b refEq).slot last

theorem accessible_of_follow {path : AccessPath Root Slot} (led : s.follow path = some d) :
    s.Accessible d :=
  accessible_of_descend (fun _ => Accessible.root) path.slots led

/-- Every accessible object has an access path. -/
theorem Accessible.exists_path (accessible : s.Accessible d) : ∃ path, s.follow path = some d := by
  induction accessible with
  | @root r b led => exact ⟨⟨r, []⟩, led⟩
  | @slot b d k _ led ih =>
      rcases ih with ⟨path, before⟩
      refine ⟨path.snoc k, ?_⟩
      rw [follow_snoc, before]
      exact led

/-- The accessible objects of `s'` are those of `s`, named by `f`. -/
structure Renames (f : Ref → Ref') (s : Store Ref Root Slot Content)
    (s' : Store Ref' Root Slot Content) : Prop where
  injective : ∀ b d, s.Accessible b → s.Accessible d → f b = f d → b = d
  content : ∀ b, s.Accessible b → s'.content (f b) = s.content b
  slot : ∀ b, s.Accessible b → ∀ k, s'.slot (f b) k = (s.slot b k).map f
  root : ∀ r, s'.root r = (s.root r).map f

namespace Renames

theorem descend (renames : Renames f s s') (slots : List Slot) (ref : Option Ref)
    (accessible : ∀ b, ref = some b → s.Accessible b) :
    s'.descend (ref.map f) slots = (s.descend ref slots).map f := by
  induction slots generalizing ref with
  | nil => rfl
  | cons k slots ih =>
      have next : ((ref.map f).bind fun b => s'.slot b k) =
          (ref.bind fun b => s.slot b k).map f := by
        cases ref with
        | none => rfl
        | some b => exact renames.slot b (accessible b rfl) k
      unfold Store.descend
      rw [next]
      apply ih
      intro d led
      rcases Option.bind_eq_some_iff.mp led with ⟨b, refEq, last⟩
      exact (accessible b refEq).slot last

theorem follow (renames : Renames f s s') (path : AccessPath Root Slot) :
    s'.follow path = (s.follow path).map f := by
  unfold Store.follow
  rw [renames.root]
  exact renames.descend path.slots _ fun _ => Accessible.root

/-- The objects that are accessible under the new names. -/
theorem accessible_iff (renames : Renames f s s') {b' : Ref'} :
    s'.Accessible b' ↔ ∃ b, s.Accessible b ∧ f b = b' := by
  constructor
  · intro accessible
    rcases accessible.exists_path with ⟨path, led⟩
    rw [renames.follow] at led
    rcases Option.map_eq_some_iff.mp led with ⟨b, before, same⟩
    exact ⟨b, accessible_of_follow before, same⟩
  · rintro ⟨b, accessible, rfl⟩
    rcases accessible.exists_path with ⟨path, led⟩
    have led' : s'.follow path = some (f b) := by
      rw [renames.follow, led]
      rfl
    exact accessible_of_follow led'

/-- Stores with the same roots that differ in inaccessible objects only. -/
theorem of_eq {s₁ : Store Ref Root Slot Content} (root : ∀ r, s₁.root r = s.root r)
    (content : ∀ b, s.Accessible b → s₁.content b = s.content b)
    (slot : ∀ b, s.Accessible b → ∀ k, s₁.slot b k = s.slot b k) : Renames id s s₁ where
  injective _ _ _ _ same := same
  content := content
  slot b accessible k := by
    rw [Option.map_id]
    exact slot b accessible k
  root r := by
    rw [Option.map_id]
    exact root r

end Renames

/-- Along any access paths the client finds the same contents and the same aliases. -/
structure Alike (s : Store Ref Root Slot Content) (s' : Store Ref' Root Slot Content) : Prop where
  content : ∀ path, (s.follow path).map s.content = (s'.follow path).map s'.content
  aliases : ∀ path path', s.follow path = s.follow path' ↔ s'.follow path = s'.follow path'

namespace Alike

theorem refl (s : Store Ref Root Slot Content) : Alike s s where
  content _ := rfl
  aliases _ _ := Iff.rfl

theorem symm (alike : Alike s s') : Alike s' s where
  content path := (alike.content path).symm
  aliases path path' := (alike.aliases path path').symm

theorem trans (alike : Alike s s') (alike' : Alike s' s'') : Alike s s'' where
  content path := (alike.content path).trans (alike'.content path)
  aliases path path' := (alike.aliases path path').trans (alike'.aliases path path')

end Alike

theorem not_accessible_of_noRoots (noRoots : ∀ r, s.root r = none) : ¬s.Accessible b := by
  intro accessible
  induction accessible with
  | @root r b led =>
      rw [noRoots] at led
      cases led
  | slot _ _ ih => exact ih

/-- New names make no difference. -/
theorem Renames.alike (renames : Renames f s s') : Alike s s' where
  content path := by
    rw [renames.follow]
    cases led : s.follow path with
    | none => rfl
    | some b => exact congrArg some (renames.content b (accessible_of_follow led)).symm
  aliases path path' := by
    rw [renames.follow, renames.follow]
    constructor
    · exact congrArg _
    · intro same
      cases led : s.follow path with
      | none =>
          rw [led] at same
          exact (Option.map_eq_none_iff.mp same.symm).symm
      | some b =>
          rw [led] at same
          rcases Option.map_eq_some_iff.mp same.symm with ⟨d, led', sameName⟩
          rw [led', renames.injective d b (accessible_of_follow led') (accessible_of_follow led)
            sameName]

/-- Without roots there is nothing to see. -/
theorem Alike.of_noRoots [Nonempty Ref'] (noRoots : ∀ r, s.root r = none)
    (noRoots' : ∀ r, s'.root r = none) : Alike s s' := by
  have none : Renames (fun _ => Classical.arbitrary Ref') s s' :=
    { injective := fun _ _ accessible => absurd accessible (not_accessible_of_noRoots noRoots)
      content := fun _ accessible => absurd accessible (not_accessible_of_noRoots noRoots)
      slot := fun _ accessible => absurd accessible (not_accessible_of_noRoots noRoots)
      root := fun r => by rw [noRoots, noRoots', Option.map_none] }
  exact none.alike

/-- Nothing but names distinguishes stores that are alike. -/
theorem Alike.exists_renames [Nonempty Ref'] (alike : Alike s s') :
    ∃ f : Ref → Ref', Renames f s s' := by
  have named : ∀ b, ∃ b', s.Accessible b →
      ∃ path, s.follow path = some b ∧ s'.follow path = some b' := by
    intro b
    by_cases accessible : s.Accessible b
    · rcases accessible.exists_path with ⟨path, led⟩
      have content := alike.content path
      rw [led] at content
      rcases Option.map_eq_some_iff.mp content.symm with ⟨b', led', _⟩
      exact ⟨b', fun _ => ⟨path, led, led'⟩⟩
    · exact ⟨Classical.arbitrary Ref', fun isAccessible => absurd isAccessible accessible⟩
  choose f path using named
  have follow : ∀ path, s'.follow path = (s.follow path).map f := by
    intro p
    cases led : s.follow p with
    | none =>
        have content := alike.content p
        rw [led] at content
        exact Option.map_eq_none_iff.mp content.symm
    | some b =>
        rcases path b (accessible_of_follow led) with ⟨q, led', named⟩
        rw [(alike.aliases p q).mp (led.trans led'.symm), named]
        rfl
  refine ⟨f, ?_, ?_, ?_, fun r => follow ⟨r, []⟩⟩
  · intro b d bAccessible dAccessible same
    rcases path b bAccessible with ⟨p, led, named⟩
    rcases path d dAccessible with ⟨q, led', named'⟩
    have sameObject : s.follow p = s.follow q := by
      rw [alike.aliases, named, named', same]
    rw [led, led'] at sameObject
    exact Option.some.inj sameObject
  · intro b accessible
    rcases path b accessible with ⟨p, led, named⟩
    have content := alike.content p
    rw [led, named] at content
    exact (Option.some.inj content).symm
  · intro b accessible k
    rcases path b accessible with ⟨p, led, named⟩
    have next := follow (p.snoc k)
    rw [follow_snoc, follow_snoc, led, named] at next
    exact next

@[simps]
def setRoot [DecidableEq Root] (r : Root) (ref : Option Ref) (s : Store Ref Root Slot Content) :
    Store Ref Root Slot Content :=
  { s with root := Function.update s.root r ref }

@[simps]
def setSlot [DecidableEq Ref] [DecidableEq Slot] (b : Ref) (k : Slot) (ref : Option Ref)
    (s : Store Ref Root Slot Content) : Store Ref Root Slot Content :=
  { s with slot := Function.update s.slot b (Function.update (s.slot b) k ref) }

@[simps]
def setContent [DecidableEq Ref] (b : Ref) (content : Content)
    (s : Store Ref Root Slot Content) : Store Ref Root Slot Content :=
  { s with content := Function.update s.content b content }

/-- A new object with null slots, to which a root refers. -/
@[simps]
def create [DecidableEq Ref] [DecidableEq Root] (r : Root) (b : Ref) (content : Content)
    (s : Store Ref Root Slot Content) : Store Ref Root Slot Content where
  content := Function.update s.content b content
  slot := Function.update s.slot b fun _ => none
  root := Function.update s.root r (some b)

variable {ref : Option Ref} {content : Content}

theorem accessible_of_setRoot [DecidableEq Root] (target : ∀ d, ref = some d → s.Accessible d)
    (accessible : (s.setRoot r ref).Accessible b) : s.Accessible b := by
  induction accessible with
  | @root q b led =>
      by_cases same : q = r
      · subst same
        rw [setRoot_root, Function.update_self] at led
        exact target b led
      · rw [setRoot_root, Function.update_of_ne same] at led
        exact Accessible.root led
  | slot _ led ih => exact ih.slot led

theorem accessible_of_setSlot [DecidableEq Ref] [DecidableEq Slot]
    (target : ∀ e, ref = some e → s.Accessible e)
    (accessible : (s.setSlot d k ref).Accessible b) : s.Accessible b := by
  induction accessible with
  | root led => exact Accessible.root led
  | @slot b e j _ led ih =>
      by_cases same : b = d
      · subst same
        rw [setSlot_slot, Function.update_self] at led
        by_cases sameSlot : j = k
        · subst sameSlot
          rw [Function.update_self] at led
          exact target e led
        · rw [Function.update_of_ne sameSlot] at led
          exact ih.slot led
      · rw [setSlot_slot, Function.update_of_ne same] at led
        exact ih.slot led

theorem accessible_of_setContent [DecidableEq Ref]
    (accessible : (s.setContent d content).Accessible b) : s.Accessible b := by
  induction accessible with
  | root led => exact Accessible.root led
  | slot _ led ih => exact ih.slot led

theorem accessible_of_create [DecidableEq Ref] [DecidableEq Root]
    (accessible : (s.create r d content).Accessible b) : b = d ∨ s.Accessible b := by
  induction accessible with
  | @root q b led =>
      by_cases same : q = r
      · subst same
        rw [create_root, Function.update_self] at led
        exact Or.inl (Option.some.inj led).symm
      · rw [create_root, Function.update_of_ne same] at led
        exact Or.inr (Accessible.root led)
  | @slot b e j _ led ih =>
      by_cases same : b = d
      · subst same
        rw [create_slot, Function.update_self] at led
        cases led
      · rw [create_slot, Function.update_of_ne same] at led
        exact Or.inr ((ih.resolve_left same).slot led)

namespace Renames

theorem setRoot [DecidableEq Root] (renames : Renames f s s')
    (target : ∀ d, ref = some d → s.Accessible d) :
    Renames f (s.setRoot r ref) (s'.setRoot r (ref.map f)) where
  injective b d bAccessible dAccessible same :=
    renames.injective b d (accessible_of_setRoot target bAccessible)
      (accessible_of_setRoot target dAccessible) same
  content b accessible := renames.content b (accessible_of_setRoot target accessible)
  slot b accessible := renames.slot b (accessible_of_setRoot target accessible)
  root q := by
    by_cases same : q = r
    · subst same
      simp [Store.setRoot]
    · simp [Store.setRoot, Function.update_of_ne same, renames.root]

theorem setSlot [DecidableEq Ref] [DecidableEq Ref'] [DecidableEq Slot]
    (renames : Renames f s s') (accessible : s.Accessible d)
    (target : ∀ e, ref = some e → s.Accessible e) :
    Renames f (s.setSlot d k ref) (s'.setSlot (f d) k (ref.map f)) where
  injective b e bAccessible eAccessible same :=
    renames.injective b e (accessible_of_setSlot target bAccessible)
      (accessible_of_setSlot target eAccessible) same
  content b bAccessible := renames.content b (accessible_of_setSlot target bAccessible)
  slot b bAccessible j := by
    have before := accessible_of_setSlot target bAccessible
    by_cases same : b = d
    · subst same
      by_cases sameSlot : j = k
      · subst sameSlot
        simp [Store.setSlot]
      · simp [Store.setSlot, Function.update_of_ne sameSlot, renames.slot b before]
    · have apart : f b ≠ f d := fun sameName =>
        same (renames.injective b d before accessible sameName)
      simp [Store.setSlot, Function.update_of_ne same, Function.update_of_ne apart,
        renames.slot b before]
  root := renames.root

theorem setContent [DecidableEq Ref] [DecidableEq Ref'] (renames : Renames f s s')
    (accessible : s.Accessible d) :
    Renames f (s.setContent d content) (s'.setContent (f d) content) where
  injective b e bAccessible eAccessible same :=
    renames.injective b e (accessible_of_setContent bAccessible)
      (accessible_of_setContent eAccessible) same
  content b bAccessible := by
    have before := accessible_of_setContent bAccessible
    by_cases same : b = d
    · subst same
      simp [Store.setContent]
    · have apart : f b ≠ f d := fun sameName =>
        same (renames.injective b d before accessible sameName)
      simp [Store.setContent, Function.update_of_ne same, Function.update_of_ne apart,
        renames.content b before]
  slot b bAccessible := renames.slot b (accessible_of_setContent bAccessible)
  root := renames.root

/-- The new object may have any name that no accessible object has. -/
theorem create [DecidableEq Ref] [DecidableEq Ref'] [DecidableEq Root]
    (renames : Renames f s s') {b' : Ref'} (fresh : ¬s.Accessible b)
    (fresh' : ¬s'.Accessible b') :
    Renames (Function.update f b b') (s.create r b content) (s'.create r b' content) := by
  have old : ∀ d, s.Accessible d → d ≠ b ∧ f d ≠ b' := by
    intro d accessible
    constructor
    · rintro rfl
      exact fresh accessible
    · rintro rfl
      exact fresh' (renames.accessible_iff.mpr ⟨d, accessible, rfl⟩)
  have kept : ∀ ref : Option Ref, (∀ d, ref = some d → s.Accessible d) →
      ref.map (Function.update f b b') = ref.map f := by
    intro ref accessible
    cases ref with
    | none => rfl
    | some d => simp [Function.update_of_ne (old d (accessible d rfl)).1]
  refine ⟨?_, ?_, ?_, ?_⟩
  · intro d e dAccessible eAccessible same
    rcases accessible_of_create dAccessible with rfl | dBefore
    · rcases accessible_of_create eAccessible with rfl | eBefore
      · rfl
      · rw [Function.update_self, Function.update_of_ne (old e eBefore).1] at same
        exact absurd same.symm (old e eBefore).2
    · rcases accessible_of_create eAccessible with rfl | eBefore
      · rw [Function.update_self, Function.update_of_ne (old d dBefore).1] at same
        exact absurd same (old d dBefore).2
      · rw [Function.update_of_ne (old d dBefore).1, Function.update_of_ne (old e eBefore).1]
          at same
        exact renames.injective d e dBefore eBefore same
  · intro d accessible
    rcases accessible_of_create accessible with rfl | before
    · simp [Store.create]
    · simp [Store.create, Function.update_of_ne (old d before).1,
        Function.update_of_ne (old d before).2, renames.content d before]
  · intro d accessible k
    rcases accessible_of_create accessible with rfl | before
    · simp [Store.create]
    · simp [Store.create, Function.update_of_ne (old d before).1,
        Function.update_of_ne (old d before).2, renames.slot d before,
        kept _ fun e led => before.slot led]
  · intro q
    by_cases same : q = r
    · subst same
      simp [Store.create]
    · simp [Store.create, Function.update_of_ne same, renames.root,
        kept _ fun e led => Accessible.root led]

end Renames

/-- The reference that an assignment reads along an access path; without one it is null. -/
def value (source : Option (AccessPath Root Slot)) (s : Store Ref Root Slot Content) : Option Ref :=
  source.bind s.follow

theorem accessible_of_value {source : Option (AccessPath Root Slot)} (b : Ref)
    (read : s.value source = some b) : s.Accessible b := by
  rcases Option.bind_eq_some_iff.mp read with ⟨path, _, led⟩
  exact accessible_of_follow led

theorem Renames.value (renames : Renames f s s') (source : Option (AccessPath Root Slot)) :
    s'.value source = (s.value source).map f := by
  cases source with
  | none => rfl
  | some path => exact renames.follow path

end Store

/-- What a client does: it creates objects, assigns to roots and slots what it finds along an access
path, and changes contents. -/
inductive Action (Root Slot Content : Type*) where
  | create (r : Root) (content : Content)
  | assignRoot (r : Root) (source : Option (AccessPath Root Slot))
  | assignSlot (target : AccessPath Root Slot) (k : Slot) (source : Option (AccessPath Root Slot))
  | modify (target : AccessPath Root Slot) (content : Content)

/-- The assignment to the place at the end of an access path: a root, or a slot of an object. -/
def Action.assign (target : AccessPath Root Slot) (source : Option (AccessPath Root Slot)) :
    Action Root Slot Content :=
  match target.slots.getLast? with
  | none => .assignRoot target.root source
  | some k => .assignSlot { target with slots := target.slots.dropLast } k source

@[simp]
theorem Action.assign_root (r : Root) (source : Option (AccessPath Root Slot)) :
    (Action.assign ⟨r, []⟩ source : Action Root Slot Content) = .assignRoot r source := rfl

@[simp]
theorem Action.assign_snoc (target : AccessPath Root Slot) (k : Slot)
    (source : Option (AccessPath Root Slot)) :
    (Action.assign (target.snoc k) source : Action Root Slot Content) =
      .assignSlot target k source := by
  simp [Action.assign, AccessPath.snoc]

namespace Store

section Actions

variable [DecidableEq Ref] [DecidableEq Ref'] [DecidableEq Root] [DecidableEq Slot]
  {s t : Store Ref Root Slot Content} {s' t' : Store Ref' Root Slot Content} {f : Ref → Ref'}
  {a : Action Root Slot Content}

/-- The store after an action.  A new object has a name that no accessible object has. -/
inductive Executes (s : Store Ref Root Slot Content) :
    Action Root Slot Content → Store Ref Root Slot Content → Prop where
  | create {r : Root} {b : Ref} {content : Content} : ¬s.Accessible b →
      Executes s (.create r content) (s.create r b content)
  | assignRoot {r : Root} {source : Option (AccessPath Root Slot)} :
      Executes s (.assignRoot r source) (s.setRoot r (s.value source))
  | assignSlot {target : AccessPath Root Slot} {k : Slot} {source : Option (AccessPath Root Slot)}
      {b : Ref} : s.follow target = some b →
      Executes s (.assignSlot target k source) (s.setSlot b k (s.value source))
  | modify {target : AccessPath Root Slot} {content : Content} {b : Ref} :
      s.follow target = some b → Executes s (.modify target content) (s.setContent b content)

/-- The action on a store in which no accessible object is named `fresh`.  An action on an object
that is not there does nothing. -/
def act (fresh : Ref) (a : Action Root Slot Content) (s : Store Ref Root Slot Content) :
    Store Ref Root Slot Content :=
  match a with
  | .create r content => s.create r fresh content
  | .assignRoot r source => s.setRoot r (s.value source)
  | .assignSlot target k source =>
      (s.follow target).elim s fun b => s.setSlot b k (s.value source)
  | .modify target content => (s.follow target).elim s fun b => s.setContent b content

theorem accessible_of_act {fresh b : Ref} (accessible : (s.act fresh a).Accessible b) :
    b = fresh ∨ s.Accessible b := by
  cases a with
  | create r content => exact accessible_of_create accessible
  | assignRoot r source => exact Or.inr (accessible_of_setRoot accessible_of_value accessible)
  | assignSlot target k source =>
      unfold act at accessible
      dsimp only at accessible
      cases led : s.follow target with
      | none =>
          rw [led] at accessible
          exact Or.inr accessible
      | some d =>
          rw [led] at accessible
          exact Or.inr (accessible_of_setSlot accessible_of_value accessible)
  | modify target content =>
      unfold act at accessible
      dsimp only at accessible
      cases led : s.follow target with
      | none =>
          rw [led] at accessible
          exact Or.inr accessible
      | some d =>
          rw [led] at accessible
          exact Or.inr (accessible_of_setContent accessible)

/-- What can be done in one store can be done under new names. -/
theorem Renames.executes_act (renames : Renames f s s') (executes : Executes s a t) {fresh : Ref'}
    (unused : ¬s'.Accessible fresh) : Executes s' a (s'.act fresh a) := by
  cases executes with
  | create _ => exact .create unused
  | assignRoot => exact .assignRoot
  | @assignSlot target _ _ _ led =>
      have led' := renames.follow target
      rw [led, Option.map_some] at led'
      unfold act
      dsimp only
      rw [led']
      exact .assignSlot led'
  | @modify target _ _ led =>
      have led' := renames.follow target
      rw [led, Option.map_some] at led'
      unfold act
      dsimp only
      rw [led']
      exact .modify led'

/-- An action does the same to the objects under their new names. -/
theorem Renames.executes (renames : Renames f s s') (executes : Executes s a t)
    (executes' : Executes s' a t') : ∃ g, Renames g t t' := by
  cases executes with
  | create fresh =>
      cases executes' with
      | create fresh' => exact ⟨_, renames.create fresh fresh'⟩
  | assignRoot =>
      cases executes' with
      | assignRoot =>
          rw [renames.value]
          exact ⟨f, renames.setRoot accessible_of_value⟩
  | assignSlot led =>
      cases executes' with
      | assignSlot led' =>
          rw [renames.follow, led] at led'
          rw [← Option.some.inj led', renames.value]
          exact ⟨f, renames.setSlot (accessible_of_follow led) accessible_of_value⟩
  | modify led =>
      cases executes' with
      | modify led' =>
          rw [renames.follow, led] at led'
          rw [← Option.some.inj led']
          exact ⟨f, renames.setContent (accessible_of_follow led)⟩

/-- Stores that are alike stay alike under the same action. -/
theorem Alike.executes [Nonempty Ref'] (alike : Alike s s') (executes : Executes s a t)
    (executes' : Executes s' a t') : Alike t t' := by
  rcases alike.exists_renames with ⟨f, renames⟩
  rcases renames.executes executes executes' with ⟨g, renames'⟩
  exact renames'.alike

end Actions

end Store

/-- A store whose objects are numbered in the order of their creation. -/
structure Ideal (Root Slot Content : Type*) where
  store : Store ℕ Root Slot Content
  next : ℕ
  bounded : ∀ b, store.Accessible b → b < next

namespace Ideal

open Store

variable [DecidableEq Root] [DecidableEq Slot] [DecidableEq Ref]
  {a : Action Root Slot Content} {s t : Store Ref Root Slot Content}

/-- The store before any action. -/
def empty [Inhabited Content] : Ideal Root Slot Content where
  store := { content := fun _ => default, slot := fun _ _ => none, root := fun _ => none }
  next := 0
  bounded b accessible := by
    exfalso
    induction accessible with
    | root led => cases led
    | slot _ led _ => cases led

/-- The store after an action. -/
def perform (i : Ideal Root Slot Content) (a : Action Root Slot Content) :
    Ideal Root Slot Content where
  store := i.store.act i.next a
  next := i.next + 1
  bounded b accessible := by
    rcases accessible_of_act accessible with rfl | before
    · exact Nat.lt_succ_self _
    · exact Nat.lt_succ_of_lt (i.bounded b before)

def performAll (actions : List (Action Root Slot Content)) (i : Ideal Root Slot Content) :
    Ideal Root Slot Content :=
  actions.foldl perform i

/-- What a client does in a store that is alike, it does in the ideal store. -/
theorem alike_perform (i : Ideal Root Slot Content) (alike : Alike s i.store)
    (executes : Executes s a t) : Alike t (i.perform a).store := by
  rcases alike.exists_renames with ⟨f, renames⟩
  apply alike.executes executes
  apply renames.executes_act executes
  exact fun accessible => Nat.lt_irrefl _ (i.bounded _ accessible)

end Ideal

/-- The steps of a system together with the actions they perform; other steps are silent. -/
def Recording {σ : Type*} (step : Option (Action Root Slot Content) → σ → σ → Prop)
    (p q : σ × List (Action Root Slot Content)) : Prop :=
  ∃ label, step label p.1 q.1 ∧ q.2 = p.2 ++ label.toList

/-- If silent steps keep the store alike and the others perform their actions, the store is alike to
the ideal one after all actions. -/
theorem alike_ideal {σ : Type*} [DecidableEq Ref] [DecidableEq Root] [DecidableEq Slot]
    [Inhabited Content] {step : Option (Action Root Slot Content) → σ → σ → Prop}
    {initial holds : σ → Prop} (view : σ → Store Ref Root Slot Content)
    (starts : ∀ s, initial s → holds s ∧ ∀ r, (view s).root r = none)
    (keeps : ∀ label s s', holds s → step label s s' → holds s')
    (silent : ∀ s s', holds s → step none s s' → (view s).Alike (view s'))
    (acts : ∀ a s s', holds s → step (some a) s s' →
      ∃ t, (view s).Executes a t ∧ t.Alike (view s'))
    {s : σ} {actions : List (Action Root Slot Content)}
    (run : Reachable (fun p => initial p.1 ∧ p.2 = []) (Recording step) (s, actions)) :
    (view s).Alike (Ideal.empty.performAll actions).store := by
  have invariant := @Reachable.invariant _ _ _ _
    (fun p => holds p.1 ∧ (view p.1).Alike (Ideal.empty.performAll p.2).store) run ?_ ?_
  · exact invariant.2
  · rintro ⟨s, actions⟩ ⟨isInitial, noActions⟩
    rcases starts s isInitial with ⟨initially, noRoots⟩
    dsimp only at noActions ⊢
    rw [noActions]
    exact ⟨initially, Store.Alike.of_noRoots noRoots fun _ => rfl⟩
  · rintro ⟨s, actions⟩ ⟨s', actions'⟩ ⟨before, alike⟩ ⟨label, stepped, appended⟩
    dsimp only at before alike stepped appended ⊢
    rw [appended]
    refine ⟨keeps label s s' before stepped, ?_⟩
    cases label with
    | none =>
        rw [Option.toList_none, List.append_nil]
        exact (silent s s' before stepped).symm.trans alike
    | some a =>
        rcases acts a s s' before stepped with ⟨t, executes, alike'⟩
        have performed := (Ideal.empty.performAll actions).alike_perform alike executes
        rw [Option.toList_some, Ideal.performAll, List.foldl_append]
        exact alike'.symm.trans performed

end Foundation
