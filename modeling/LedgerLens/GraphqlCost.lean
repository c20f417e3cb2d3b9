import Mathlib.Data.Int.Notation
import Mathlib.Data.List.Nodup
import Mathlib.Data.List.Perm.Subperm
import Mathlib.Order.Nat

/-!
# GraphQL query cost

`api/graphql_cost.py`: the static cost and depth of a document, and the cost of the document in
which the fragments are written out.
-/
namespace GraphqlCost

/-- A selection set. A field without one is a leaf. -/
inductive Selections where
  | nil
  | leaf (name : String) (rest : Selections)
  | field (name : String) (selections rest : Selections)
  | inlineFragment (selections rest : Selections)
  | fragmentSpread (name : String) (rest : Selections)
  deriving DecidableEq, Repr

inductive OperationType where
  | query
  | mutation
  | subscription
  deriving DecidableEq, Repr

structure Operation where
  operation : OperationType
  name : Option String
  selections : Selections
  deriving DecidableEq, Repr

inductive Definition where
  | operation (op : Operation)
  | fragment (name : String) (selections : Selections)
  | other
  deriving DecidableEq, Repr

/-- The named type of a field, and whether its nullable type is a list. -/
structure FieldDef (Ty : Type) where
  namedType : Ty
  isList : Bool

structure Schema (Ty : Type) where
  rootType : OperationType → Option Ty
  fields : Ty → String → Option (FieldDef Ty)
  isObject : Ty → Bool

@[ext] structure QueryCost where
  cost : ℕ
  depth : ℕ
  deriving DecidableEq, Repr

def DEFAULT_LIST_MULTIPLIER : ℕ := 10

def DEFAULT_MAX_DEPTH : ℕ := 8

abbrev Fragments := List (String × Selections)

def Fragments.get? (fragments : Fragments) (name : String) : Option Selections :=
  (fragments.reverse.find? fun f => decide (f.1 = name)).map Prod.snd

section Cost

variable {Ty : Type} (schema : Schema Ty) (fragments : Fragments) (multiplier : ℕ)

/-- Introspection is free, and unknown fields are left to the validation. -/
def countedField (parent : Ty) (name : String) : Option (FieldDef Ty) :=
  if name.startsWith "__" then none else schema.fields parent name

def addField (field : FieldDef Ty) (child rest : ℕ × ℕ) : ℕ × ℕ :=
  (1 + child.1 * (if field.isList then multiplier else 1) + rest.1, max child.2 rest.2)

def addFragment (sub rest : ℕ × ℕ) : ℕ × ℕ := (sub.1 + rest.1, max sub.2 rest.2)

/-- The walk over a selection set, where `spread` gives the cost of a fragment. A fragment that was
spread stays visited for the selections after it. -/
def walk (spread : Ty → ℕ → List String → Selections → ℕ × ℕ) :
    Selections → Ty → ℕ → List String → ℕ × ℕ
  | .nil, _, depth, _ => (0, depth)
  | .leaf name rest, parent, depth, visiting =>
    match countedField schema parent name with
    | none => walk spread rest parent depth visiting
    | some field => addField multiplier field (0, depth) (walk spread rest parent depth visiting)
  | .field name selections rest, parent, depth, visiting =>
    match countedField schema parent name with
    | none => walk spread rest parent depth visiting
    | some field =>
      let child := if schema.isObject field.namedType = true then
        walk spread selections field.namedType (depth + 1) visiting else (0, depth)
      addField multiplier field child (walk spread rest parent depth visiting)
  | .inlineFragment selections rest, parent, depth, visiting =>
    addFragment (walk spread selections parent depth visiting)
      (walk spread rest parent depth visiting)
  | .fragmentSpread name rest, parent, depth, visiting =>
    match fragments.get? name with
    | none => walk spread rest parent depth visiting
    | some sub =>
      if name ∈ visiting then walk spread rest parent depth visiting
      else addFragment (spread parent depth (name :: visiting) sub)
        (walk spread rest parent depth (name :: visiting))

/-- `_selection_cost`, to as many fragments inside one another as the bound says. -/
def selectionCost : ℕ → Ty → ℕ → List String → Selections → ℕ × ℕ
  | 0, parent, depth, visiting, sels =>
    walk schema fragments multiplier (fun _ depth _ _ => (0, depth)) sels parent depth visiting
  | bound + 1, parent, depth, visiting, sels =>
    walk schema fragments multiplier (selectionCost bound) sels parent depth visiting

end Cost

def fragmentsOf (document : List Definition) : Fragments :=
  document.filterMap fun
    | .fragment name selections => some (name, selections)
    | _ => none

def operationsOf (document : List Definition) : List Operation :=
  document.filterMap fun
    | .operation op => some op
    | _ => none

/-- An operation name that is absent or empty selects every operation. -/
def Selected (operationName : Option String) (op : Operation) : Prop :=
  ∀ name ∈ operationName, name ≠ "" → op.name = some name

instance (operationName : Option String) (op : Operation) : Decidable (Selected operationName op) :=
  inferInstanceAs (Decidable (∀ name ∈ operationName, _))

section Document

variable {Ty : Type} (schema : Schema Ty) (multiplier : ℕ)

def addOperation (fragments : Fragments) (total : QueryCost) (op : Operation) : QueryCost :=
  match schema.rootType op.operation with
  | none => total
  | some root =>
    let (cost, depth) :=
      selectionCost schema fragments multiplier fragments.length root 1 [] op.selections
    ⟨total.cost + cost, max total.depth depth⟩

def calculateQueryCost (document : List Definition) (operationName : Option String) : QueryCost :=
  ((operationsOf document).filter fun op => Selected operationName op).foldl
    (addOperation schema multiplier (fragmentsOf document)) ⟨0, 0⟩

end Document

/-- `_check_cost` lets the query through; a budget of zero or less is no budget. -/
def Admits (maxDepth : ℕ) (budget : ℤ) (result : QueryCost) : Prop :=
  result.depth ≤ maxDepth ∧ (0 < budget → result.cost ≤ budget)

def substitute (body : String → Option Selections) : Selections → Selections
  | .nil => .nil
  | .leaf name rest => .leaf name (substitute body rest)
  | .field name selections rest =>
    .field name (substitute body selections) (substitute body rest)
  | .inlineFragment selections rest =>
    .inlineFragment (substitute body selections) (substitute body rest)
  | .fragmentSpread name rest =>
    match body name with
    | none => .fragmentSpread name (substitute body rest)
    | some sub => .inlineFragment sub (substitute body rest)

/-- Every spread replaced by the selection set of its fragment, that in turn with its own spreads
replaced. What stays are the spreads of fragments that enclose them, and those of no fragment. -/
def inlineFragments (fragments : Fragments) : ℕ → List String → Selections → Selections
  | 0, _, sels => substitute (fun _ => none) sels
  | bound + 1, enclosing, sels => substitute (fun name =>
      if name ∈ enclosing then none
      else (fragments.get? name).map (inlineFragments fragments bound (name :: enclosing))) sels

def Operation.inlined (fragments : Fragments) (op : Operation) : Operation :=
  { op with selections := inlineFragments fragments fragments.length [] op.selections }

/-- The document with its fragments written out, and without them. -/
def inlined (document : List Definition) : List Definition :=
  (operationsOf document).map fun op => .operation (op.inlined (fragmentsOf document))

section Hidden

variable {Ty : Type} (schema : Schema Ty) (fragments : Fragments)

inductive Selects (parent : Ty) : List String → Selections → Prop where
  | leaf {enclosing name rest field} : countedField schema parent name = some field →
      Selects parent enclosing (.leaf name rest)
  | field {enclosing name sels rest field} : countedField schema parent name = some field →
      Selects parent enclosing (.field name sels rest)
  | inlineFragment {enclosing sels rest} : Selects parent enclosing sels →
      Selects parent enclosing (.inlineFragment sels rest)
  | fragmentSpread {enclosing name rest sub} : name ∉ enclosing →
      fragments.get? name = some sub → Selects parent (name :: enclosing) sub →
      Selects parent enclosing (.fragmentSpread name rest)
  | leafRest {enclosing name rest} : Selects parent enclosing rest →
      Selects parent enclosing (.leaf name rest)
  | fieldRest {enclosing name sels rest} : Selects parent enclosing rest →
      Selects parent enclosing (.field name sels rest)
  | inlineFragmentRest {enclosing sels rest} : Selects parent enclosing rest →
      Selects parent enclosing (.inlineFragment sels rest)
  | fragmentSpreadRest {enclosing name rest} : Selects parent enclosing rest →
      Selects parent enclosing (.fragmentSpread name rest)

/-- A spread of a fragment that was visited before it without enclosing it, and that selects a field
that counts. -/
inductive Hides : Ty → List String → List String → Selections → Prop where
  | hidden {parent enclosing visiting name rest sub} : name ∈ visiting → name ∉ enclosing →
      fragments.get? name = some sub → Selects schema fragments parent (name :: enclosing) sub →
      Hides parent enclosing visiting (.fragmentSpread name rest)
  | field {parent enclosing visiting name sels rest field} :
      countedField schema parent name = some field → schema.isObject field.namedType = true →
      Hides field.namedType enclosing visiting sels →
      Hides parent enclosing visiting (.field name sels rest)
  | inlineFragment {parent enclosing visiting sels rest} : Hides parent enclosing visiting sels →
      Hides parent enclosing visiting (.inlineFragment sels rest)
  | fragmentSpread {parent enclosing visiting name rest sub} : name ∉ visiting →
      fragments.get? name = some sub → Hides parent (name :: enclosing) (name :: visiting) sub →
      Hides parent enclosing visiting (.fragmentSpread name rest)
  | leafRest {parent enclosing visiting name rest} : Hides parent enclosing visiting rest →
      Hides parent enclosing visiting (.leaf name rest)
  | fieldRest {parent enclosing visiting name sels rest} : Hides parent enclosing visiting rest →
      Hides parent enclosing visiting (.field name sels rest)
  | inlineFragmentRest {parent enclosing visiting sels rest} :
      Hides parent enclosing visiting rest →
      Hides parent enclosing visiting (.inlineFragment sels rest)
  | skippedRest {parent enclosing visiting name rest} :
      (name ∈ visiting ∨ fragments.get? name = none) → Hides parent enclosing visiting rest →
      Hides parent enclosing visiting (.fragmentSpread name rest)
  | fragmentSpreadRest {parent enclosing visiting name rest sub} : name ∉ visiting →
      fragments.get? name = some sub → Hides parent enclosing (name :: visiting) rest →
      Hides parent enclosing visiting (.fragmentSpread name rest)

def Operation.Hidden (op : Operation) : Prop :=
  ∃ root, schema.rootType op.operation = some root ∧
    Hides schema fragments root [] [] op.selections

end Hidden

section Results

variable {Ty : Type} {schema : Schema Ty} {fragments : Fragments} {multiplier : ℕ}

/-- The bound covers the fragments that are not yet around a selection set. -/
structure Enough (fragments : Fragments) (bound : ℕ) (enclosing : List String) : Prop where
  nodup : enclosing.Nodup
  known : enclosing ⊆ fragments.map Prod.fst
  covers : fragments.length ≤ enclosing.length + bound

theorem mem_names {name : String} {sub : Selections} (h : fragments.get? name = some sub) :
    name ∈ fragments.map Prod.fst := by
  obtain ⟨f, hfind, -⟩ := Option.map_eq_some_iff.mp h
  have hmem := List.mem_reverse.mp (List.mem_of_find?_eq_some hfind)
  have hname : f.1 = name := by simpa using List.find?_some hfind
  exact hname ▸ List.mem_map_of_mem hmem

theorem enough_nil : Enough fragments fragments.length [] where
  nodup := List.nodup_nil
  known := List.nil_subset _
  covers := Nat.le_add_left _ _

theorem Enough.enter {bound : ℕ} {enclosing : List String} {name : String} {sub : Selections}
    (h : Enough fragments bound enclosing) (hname : name ∉ enclosing)
    (hsub : fragments.get? name = some sub) :
    ∃ b, bound = b + 1 ∧ Enough fragments b (name :: enclosing) := by
  have hnodup : (name :: enclosing).Nodup := List.nodup_cons.mpr ⟨hname, h.nodup⟩
  have hknown : name :: enclosing ⊆ fragments.map Prod.fst :=
    List.cons_subset.mpr ⟨mem_names hsub, h.known⟩
  have hlength := (List.subperm_of_subset hnodup hknown).length_le
  have hcovers := h.covers
  rw [List.length_cons, List.length_map] at hlength
  refine ⟨bound - 1, by omega, hnodup, hknown, ?_⟩
  rw [List.length_cons]
  omega

theorem Enough.visit {bound : ℕ} {visiting : List String} {name : String} {sub : Selections}
    (h : Enough fragments bound visiting) (hname : name ∉ visiting)
    (hsub : fragments.get? name = some sub) : Enough fragments bound (name :: visiting) where
  nodup := List.nodup_cons.mpr ⟨hname, h.nodup⟩
  known := List.cons_subset.mpr ⟨mem_names hsub, h.known⟩
  covers := h.covers.trans (by rw [List.length_cons]; omega)

theorem walk_congr {spread spread' : Ty → ℕ → List String → Selections → ℕ × ℕ} {bound : ℕ}
    (h : ∀ parent depth visiting name sub, Enough fragments bound visiting → name ∉ visiting →
      fragments.get? name = some sub →
      spread parent depth (name :: visiting) sub = spread' parent depth (name :: visiting) sub)
    (sels : Selections) (parent : Ty) (depth : ℕ) (visiting : List String)
    (henough : Enough fragments bound visiting) :
    walk schema fragments multiplier spread sels parent depth visiting =
      walk schema fragments multiplier spread' sels parent depth visiting := by
  induction sels generalizing parent depth visiting with
  | nil => rfl
  | leaf name rest ih => simp only [walk, ih _ _ _ henough]
  | field name sels rest ihSels ihRest =>
    simp only [walk, ihSels _ _ _ henough, ihRest _ _ _ henough]
  | inlineFragment sels rest ihSels ihRest =>
    simp only [walk, ihSels _ _ _ henough, ihRest _ _ _ henough]
  | fragmentSpread name rest ih =>
    cases hsub : fragments.get? name with
    | none => simp only [walk, hsub, ih _ _ _ henough]
    | some sub =>
      by_cases hname : name ∈ visiting
      · simp only [walk, hsub, if_pos hname, ih _ _ _ henough]
      · simp only [walk, hsub, if_neg hname, h parent depth visiting name sub henough hname hsub,
          ih _ _ _ (henough.visit hname hsub)]

theorem selectionCost_bound {bound : ℕ} {visiting : List String}
    (henough : Enough fragments bound visiting) (parent : Ty) (depth : ℕ) (sels : Selections) :
    selectionCost schema fragments multiplier (bound + 1) parent depth visiting sels =
      selectionCost schema fragments multiplier bound parent depth visiting sels := by
  induction bound generalizing parent depth visiting sels with
  | zero =>
    refine walk_congr ?_ sels parent depth visiting henough
    intro _ _ _ _ _ henough' hname hsub
    obtain ⟨b, hb, -⟩ := henough'.enter hname hsub
    omega
  | succ bound ih =>
    refine walk_congr ?_ sels parent depth visiting henough
    intro parent' depth' visiting' name sub henough' hname hsub
    obtain ⟨b, hb, hrest⟩ := henough'.enter hname hsub
    obtain rfl : bound = b := Nat.succ.inj hb
    exact ih hrest parent' depth' sub

/-- One cost is below the other where something is hidden, and the same where nothing is. -/
structure Under (hidden : Prop) (l r : ℕ × ℕ) : Prop where
  lt : hidden → l.1 < r.1
  eq : ¬ hidden → l = r

theorem Under.le {hidden : Prop} {l r : ℕ × ℕ} (h : Under hidden l r) : l.1 ≤ r.1 := by
  by_cases hhidden : hidden
  · exact (h.lt hhidden).le
  · exact (congrArg Prod.fst (h.eq hhidden)).le

theorem Under.congr {hidden hidden' : Prop} {l r : ℕ × ℕ} (h : Under hidden l r)
    (hiff : hidden' ↔ hidden) : Under hidden' l r :=
  ⟨fun hhidden => h.lt (hiff.mp hhidden), fun hshown => h.eq (mt hiff.mpr hshown)⟩

theorem Under.same (c : ℕ × ℕ) : Under False c c := ⟨False.elim, fun _ => rfl⟩

theorem Under.addFragment {hidden hidden' : Prop} {l l' r r' : ℕ × ℕ} (h : Under hidden l r)
    (h' : Under hidden' l' r') :
    Under (hidden ∨ hidden') (addFragment l l') (addFragment r r') := by
  constructor
  · rintro (hhidden | hhidden)
    · exact Nat.add_lt_add_of_lt_of_le (h.lt hhidden) h'.le
    · exact Nat.add_lt_add_of_le_of_lt h.le (h'.lt hhidden)
  · intro hshown
    obtain ⟨hshown, hshown'⟩ := not_or.mp hshown
    rw [h.eq hshown, h'.eq hshown']

theorem Under.addField {hidden hidden' : Prop} {l l' r r' : ℕ × ℕ} (field : FieldDef Ty)
    (hm : 0 < multiplier) (h : Under hidden l r) (h' : Under hidden' l' r') :
    Under (hidden ∨ hidden') (addField multiplier field l l') (addField multiplier field r r') := by
  have hfactor : 0 < if field.isList then multiplier else 1 := by
    split_ifs
    · exact hm
    · exact Nat.one_pos
  have hle := Nat.mul_le_mul_right (if field.isList then multiplier else 1) h.le
  have hle' := h'.le
  constructor
  · rintro (hhidden | hhidden)
    · have hlt := Nat.mul_lt_mul_of_pos_right (h.lt hhidden) hfactor
      simp only [GraphqlCost.addField]
      omega
    · have hlt := h'.lt hhidden
      simp only [GraphqlCost.addField]
      omega
  · intro hshown
    obtain ⟨hshown, hshown'⟩ := not_or.mp hshown
    rw [h.eq hshown, h'.eq hshown']

theorem depth_le_walk {spread : Ty → ℕ → List String → Selections → ℕ × ℕ} (sels : Selections)
    (parent : Ty) (depth : ℕ) (visiting : List String) :
    depth ≤ (walk schema fragments multiplier spread sels parent depth visiting).2 := by
  induction sels generalizing parent depth visiting with
  | nil => exact Nat.le_refl depth
  | leaf name rest ih =>
    simp only [walk]
    split
    · exact ih ..
    · exact (ih ..).trans (le_max_right _ _)
  | field name sels rest _ ih =>
    simp only [walk]
    split
    · exact ih ..
    · exact (ih ..).trans (le_max_right _ _)
  | inlineFragment sels rest _ ih => exact (ih ..).trans (le_max_right _ _)
  | fragmentSpread name rest ih =>
    simp only [walk]
    split
    · exact ih ..
    · split_ifs
      · exact ih ..
      · exact (ih ..).trans (le_max_right _ _)

theorem addFragment_nothing {depth : ℕ} {c : ℕ × ℕ} (h : depth ≤ c.2) :
    addFragment (0, depth) c = c := by
  rw [addFragment, Nat.zero_add, max_eq_right h]

theorem not_selects_nil {parent : Ty} {enclosing : List String} :
    ¬ Selects schema fragments parent enclosing .nil := by
  intro h
  cases h

theorem selects_leaf_iff {parent : Ty} {enclosing : List String} {name : String}
    {rest : Selections} : Selects schema fragments parent enclosing (.leaf name rest) ↔
      (∃ field, countedField schema parent name = some field) ∨
        Selects schema fragments parent enclosing rest := by
  constructor
  · intro h
    cases h with
    | leaf hfield => exact .inl ⟨_, hfield⟩
    | leafRest hrest => exact .inr hrest
  · rintro (⟨field, hfield⟩ | hrest)
    · exact .leaf hfield
    · exact .leafRest hrest

theorem selects_field_iff {parent : Ty} {enclosing : List String} {name : String}
    {sels rest : Selections} : Selects schema fragments parent enclosing (.field name sels rest) ↔
      (∃ field, countedField schema parent name = some field) ∨
        Selects schema fragments parent enclosing rest := by
  constructor
  · intro h
    cases h with
    | field hfield => exact .inl ⟨_, hfield⟩
    | fieldRest hrest => exact .inr hrest
  · rintro (⟨field, hfield⟩ | hrest)
    · exact .field hfield
    · exact .fieldRest hrest

theorem selects_inlineFragment_iff {parent : Ty} {enclosing : List String}
    {sels rest : Selections} :
    Selects schema fragments parent enclosing (.inlineFragment sels rest) ↔
      Selects schema fragments parent enclosing sels ∨
        Selects schema fragments parent enclosing rest := by
  constructor
  · intro h
    cases h with
    | inlineFragment hsels => exact .inl hsels
    | inlineFragmentRest hrest => exact .inr hrest
  · rintro (hsels | hrest)
    · exact .inlineFragment hsels
    · exact .inlineFragmentRest hrest

theorem selects_fragmentSpread_iff {parent : Ty} {enclosing : List String} {name : String}
    {rest : Selections} : Selects schema fragments parent enclosing (.fragmentSpread name rest) ↔
      (∃ sub, name ∉ enclosing ∧ fragments.get? name = some sub ∧
        Selects schema fragments parent (name :: enclosing) sub) ∨
        Selects schema fragments parent enclosing rest := by
  constructor
  · intro h
    cases h with
    | fragmentSpread hname hsub hsels => exact .inl ⟨_, hname, hsub, hsels⟩
    | fragmentSpreadRest hrest => exact .inr hrest
  · rintro (⟨sub, hname, hsub, hsels⟩ | hrest)
    · exact .fragmentSpread hname hsub hsels
    · exact .fragmentSpreadRest hrest

theorem not_hides_nil {parent : Ty} {enclosing visiting : List String} :
    ¬ Hides schema fragments parent enclosing visiting .nil := by
  intro h
  cases h

theorem hides_leaf_iff {parent : Ty} {enclosing visiting : List String} {name : String}
    {rest : Selections} : Hides schema fragments parent enclosing visiting (.leaf name rest) ↔
      Hides schema fragments parent enclosing visiting rest := by
  constructor
  · intro h
    cases h with
    | leafRest hrest => exact hrest
  · exact .leafRest

theorem hides_field_iff {parent : Ty} {enclosing visiting : List String} {name : String}
    {sels rest : Selections} :
    Hides schema fragments parent enclosing visiting (.field name sels rest) ↔
      (∃ field, countedField schema parent name = some field ∧
        schema.isObject field.namedType = true ∧
        Hides schema fragments field.namedType enclosing visiting sels) ∨
        Hides schema fragments parent enclosing visiting rest := by
  constructor
  · intro h
    cases h with
    | field hfield hobject hsels => exact .inl ⟨_, hfield, hobject, hsels⟩
    | fieldRest hrest => exact .inr hrest
  · rintro (⟨field, hfield, hobject, hsels⟩ | hrest)
    · exact .field hfield hobject hsels
    · exact .fieldRest hrest

theorem hides_inlineFragment_iff {parent : Ty} {enclosing visiting : List String}
    {sels rest : Selections} :
    Hides schema fragments parent enclosing visiting (.inlineFragment sels rest) ↔
      Hides schema fragments parent enclosing visiting sels ∨
        Hides schema fragments parent enclosing visiting rest := by
  constructor
  · intro h
    cases h with
    | inlineFragment hsels => exact .inl hsels
    | inlineFragmentRest hrest => exact .inr hrest
  · rintro (hsels | hrest)
    · exact .inlineFragment hsels
    · exact .inlineFragmentRest hrest

theorem hides_skipped_iff {parent : Ty} {enclosing visiting : List String} {name : String}
    {rest : Selections} (hskipped : name ∈ visiting ∨ fragments.get? name = none) :
    Hides schema fragments parent enclosing visiting (.fragmentSpread name rest) ↔
      (∃ sub, name ∉ enclosing ∧ fragments.get? name = some sub ∧
        Selects schema fragments parent (name :: enclosing) sub) ∨
        Hides schema fragments parent enclosing visiting rest := by
  constructor
  · intro h
    cases h with
    | hidden _ hname hsub hsels => exact .inl ⟨_, hname, hsub, hsels⟩
    | skippedRest _ hrest => exact .inr hrest
    | fragmentSpread hname hsub _ =>
      rcases hskipped with hmem | hnone
      · exact absurd hmem hname
      · rw [hnone] at hsub
        cases hsub
    | fragmentSpreadRest hname hsub _ =>
      rcases hskipped with hmem | hnone
      · exact absurd hmem hname
      · rw [hnone] at hsub
        cases hsub
  · rintro (⟨sub, hname, hsub, hsels⟩ | hrest)
    · rcases hskipped with hmem | hnone
      · exact .hidden hmem hname hsub hsels
      · rw [hnone] at hsub
        cases hsub
    · exact .skippedRest hskipped hrest

theorem hides_followed_iff {parent : Ty} {enclosing visiting : List String} {name : String}
    {rest sub : Selections} (hname : name ∉ visiting) (hsub : fragments.get? name = some sub) :
    Hides schema fragments parent enclosing visiting (.fragmentSpread name rest) ↔
      Hides schema fragments parent (name :: enclosing) (name :: visiting) sub ∨
        Hides schema fragments parent enclosing (name :: visiting) rest := by
  constructor
  · intro h
    cases h with
    | hidden hmem => exact absurd hmem hname
    | skippedRest hskipped =>
      rcases hskipped with hmem | hnone
      · exact absurd hmem hname
      · rw [hnone] at hsub
        cases hsub
    | fragmentSpread _ hsub' hsels =>
      obtain rfl := Option.some.inj (hsub.symm.trans hsub')
      exact .inl hsels
    | fragmentSpreadRest _ _ hrest => exact .inr hrest
  · rintro (hsels | hrest)
    · exact .fragmentSpread hname hsub hsels
    · exact .fragmentSpreadRest hname hsub hrest

/-- The cost of a selection set in a document without fragments. -/
def plainCost (schema : Schema Ty) (multiplier : ℕ) (sels : Selections) (parent : Ty)
    (depth : ℕ) : ℕ × ℕ :=
  walk schema [] multiplier (fun _ depth _ _ => (0, depth)) sels parent depth []

theorem plainCost_fragmentSpread {name : String} {rest : Selections} {parent : Ty} {depth : ℕ} :
    plainCost schema multiplier (.fragmentSpread name rest) parent depth =
      plainCost schema multiplier rest parent depth := rfl

theorem plainCost_inlineFragment {sels rest : Selections} {parent : Ty} {depth : ℕ} :
    plainCost schema multiplier (.inlineFragment sels rest) parent depth =
      addFragment (plainCost schema multiplier sels parent depth)
        (plainCost schema multiplier rest parent depth) := rfl

/-- What inlining puts in the place of a spread. -/
structure Body (fragments : Fragments) (bound : ℕ) (enclosing : List String)
    (body : String → Option Selections) : Prop where
  stays : ∀ name, name ∈ enclosing ∨ fragments.get? name = none → body name = none
  replaced : ∀ name sub, name ∉ enclosing → fragments.get? name = some sub →
    ∃ b, bound = b + 1 ∧ Enough fragments b (name :: enclosing) ∧
      body name = some (inlineFragments fragments b (name :: enclosing) sub)

theorem inlineFragments_eq {bound : ℕ} {enclosing : List String}
    (henough : Enough fragments bound enclosing) : ∃ body, Body fragments bound enclosing body ∧
      inlineFragments fragments bound enclosing = substitute body := by
  cases bound with
  | zero =>
    refine ⟨_, ⟨fun _ _ => rfl, ?_⟩, rfl⟩
    intro name sub hname hsub
    obtain ⟨b, hb, -⟩ := henough.enter hname hsub
    omega
  | succ bound =>
    refine ⟨_, ⟨?_, ?_⟩, rfl⟩
    · rintro name (hmem | hnone)
      · exact if_pos hmem
      · rw [hnone]
        exact ite_self _
    · intro name sub hname hsub
      obtain ⟨b, hb, hrest⟩ := henough.enter hname hsub
      obtain rfl : bound = b := Nat.succ.inj hb
      refine ⟨bound, rfl, hrest, ?_⟩
      rw [if_neg hname, hsub]
      rfl

theorem selectionCost_eq (schema : Schema Ty) (fragments : Fragments) (multiplier bound : ℕ) :
    ∃ spread,
    (∀ b, bound = b + 1 → spread = selectionCost schema fragments multiplier b) ∧
    ∀ parent depth visiting sels,
      selectionCost schema fragments multiplier bound parent depth visiting sels =
        walk schema fragments multiplier spread sels parent depth visiting := by
  cases bound with
  | zero => exact ⟨_, fun b hb => by omega, fun _ _ _ _ => rfl⟩
  | succ bound => exact ⟨_, fun b hb => by rw [Nat.succ.inj hb], fun _ _ _ _ => rfl⟩

/-- What a selection set costs with its fragments written out: nothing, or more than that where it
selects a field that counts. -/
theorem under_selects (schema : Schema Ty) (multiplier : ℕ) {bound : ℕ} {enclosing : List String}
    (henough : Enough fragments bound enclosing) (parent : Ty) (depth : ℕ) (sels : Selections) :
    Under (Selects schema fragments parent enclosing sels) (0, depth)
      (plainCost schema multiplier (inlineFragments fragments bound enclosing sels) parent
        depth) := by
  induction bound using Nat.strong_induction_on generalizing enclosing sels with
  | _ bound ih =>
    obtain ⟨body, hbody, heq⟩ := inlineFragments_eq henough
    rw [heq]
    induction sels with
    | nil => exact ⟨fun h => absurd h not_selects_nil, fun _ => rfl⟩
    | leaf name rest ihRest =>
      cases hfield : countedField schema parent name with
      | none =>
        simp only [plainCost, substitute, walk, hfield]
        apply ihRest.congr
        simp [selects_leaf_iff, hfield]
      | some field =>
        refine ⟨fun _ => ?_, fun h => absurd (.leaf hfield) h⟩
        simp only [plainCost, substitute, walk, hfield, addField]
        omega
    | field name sels rest _ ihRest =>
      cases hfield : countedField schema parent name with
      | none =>
        simp only [plainCost, substitute, walk, hfield]
        apply ihRest.congr
        simp [selects_field_iff, hfield]
      | some field =>
        refine ⟨fun _ => ?_, fun h => absurd (.field hfield) h⟩
        simp only [plainCost, substitute, walk, hfield, addField]
        omega
    | inlineFragment sels rest ihSels ihRest =>
      have hboth := (ihSels.addFragment ihRest).congr selects_inlineFragment_iff
      rwa [addFragment_nothing (Nat.le_refl depth)] at hboth
    | fragmentSpread name rest ihRest =>
      by_cases hname : name ∈ enclosing
      · simp only [substitute, hbody.stays name (.inl hname), plainCost_fragmentSpread]
        apply ihRest.congr
        simp [selects_fragmentSpread_iff, hname]
      · cases hsub : fragments.get? name with
        | none =>
          simp only [substitute, hbody.stays name (.inr hsub), plainCost_fragmentSpread]
          apply ihRest.congr
          simp [selects_fragmentSpread_iff, hsub]
        | some sub =>
          obtain ⟨b, hb, hrest, hreplaced⟩ := hbody.replaced name sub hname hsub
          have hinner := ih b (by omega) hrest sub
          have hboth := hinner.addFragment ihRest
          rw [addFragment_nothing (Nat.le_refl depth)] at hboth
          simp only [substitute, hreplaced, plainCost_inlineFragment]
          apply hboth.congr
          simp [selects_fragmentSpread_iff, hname, hsub]

/-- The walk against the walk over the selection set with its fragments written out, where what
encloses it was visited. -/
theorem under_hides (schema : Schema Ty) (hm : 0 < multiplier) {bound : ℕ}
    {enclosing visiting : List String} (henough : Enough fragments bound enclosing)
    (hvisiting : enclosing ⊆ visiting) (parent : Ty) (depth : ℕ) (sels : Selections) :
    Under (Hides schema fragments parent enclosing visiting sels)
      (selectionCost schema fragments multiplier bound parent depth visiting sels)
      (plainCost schema multiplier (inlineFragments fragments bound enclosing sels) parent
        depth) := by
  induction bound using Nat.strong_induction_on generalizing enclosing visiting depth parent
    sels with
  | _ bound ih =>
    obtain ⟨body, hbody, heq⟩ := inlineFragments_eq henough
    obtain ⟨spread, hspread, hwalk⟩ := selectionCost_eq schema fragments multiplier bound
    rw [hwalk, heq]
    induction sels generalizing visiting parent depth with
    | nil => exact ⟨fun h => absurd h not_hides_nil, fun _ => rfl⟩
    | leaf name rest ihRest =>
      have hrest : Under (Hides schema fragments parent enclosing visiting (.leaf name rest)) _ _ :=
        (ihRest hvisiting parent depth).congr hides_leaf_iff
      cases hfield : countedField schema parent name with
      | none =>
        simp only [plainCost, substitute, walk, hfield]
        exact hrest
      | some field =>
        have hboth := Under.addField field hm (.same (0, depth)) hrest
        simp only [plainCost, substitute, walk, hfield]
        exact hboth.congr (by rw [false_or])
    | field name sels rest ihSels ihRest =>
      have hrest := ihRest hvisiting parent depth
      cases hfield : countedField schema parent name with
      | none =>
        simp only [plainCost, substitute, walk, hfield]
        apply hrest.congr
        simp [hides_field_iff, hfield]
      | some field =>
        simp only [plainCost, substitute, walk, hfield]
        by_cases hobject : schema.isObject field.namedType = true
        · have hsels := ihSels hvisiting field.namedType (depth + 1)
          have hboth := Under.addField field hm hsels hrest
          simp only [if_pos hobject]
          apply hboth.congr
          simp [hides_field_iff, hfield, hobject]
        · have hboth := Under.addField field hm (.same (0, depth)) hrest
          simp only [if_neg hobject]
          apply hboth.congr
          simp [hides_field_iff, hfield, hobject]
    | inlineFragment sels rest ihSels ihRest =>
      have hboth := (ihSels hvisiting parent depth).addFragment (ihRest hvisiting parent depth)
      exact hboth.congr hides_inlineFragment_iff
    | fragmentSpread name rest ihRest =>
      have hrest := ihRest hvisiting parent depth
      cases hsub : fragments.get? name with
      | none =>
        simp only [walk, substitute, hsub, hbody.stays name (.inr hsub), plainCost_fragmentSpread]
        apply hrest.congr
        simp [hides_skipped_iff (.inr hsub), hsub]
      | some sub =>
        by_cases hvisited : name ∈ visiting
        · by_cases hname : name ∈ enclosing
          · simp only [walk, substitute, hsub, if_pos hvisited, hbody.stays name (.inl hname),
              plainCost_fragmentSpread]
            apply hrest.congr
            simp [hides_skipped_iff (.inl hvisited), hname]
          · -- The spread is skipped, and inlining writes it out.
            obtain ⟨b, hb, hinside, hreplaced⟩ := hbody.replaced name sub hname hsub
            have hboth :=
              (under_selects schema multiplier hinside parent depth sub).addFragment hrest
            rw [addFragment_nothing (depth_le_walk rest parent depth visiting)] at hboth
            simp only [walk, substitute, hsub, if_pos hvisited, hreplaced, plainCost_inlineFragment]
            apply hboth.congr
            simp [hides_skipped_iff (.inl hvisited), hname, hsub]
        · have hname : name ∉ enclosing := fun hmem => hvisited (hvisiting hmem)
          obtain ⟨b, hb, hinside, hreplaced⟩ := hbody.replaced name sub hname hsub
          have hwider : enclosing ⊆ name :: visiting :=
            List.Subset.trans hvisiting (List.subset_cons_self _ _)
          have hsame : name :: enclosing ⊆ name :: visiting := List.cons_subset_cons name hvisiting
          have hinner := ih b (by omega) hinside hsame parent depth sub
          have hboth := hinner.addFragment (ihRest hwider parent depth)
          rw [← hspread b hb] at hboth
          simp only [walk, substitute, hsub, if_neg hvisited, hreplaced, plainCost_inlineFragment]
          exact hboth.congr (hides_followed_iff hvisited hsub)

theorem operationsOf_inlined (document : List Definition) :
    operationsOf (inlined document) =
      (operationsOf document).map (Operation.inlined (fragmentsOf document)) := by
  simp [operationsOf, inlined, List.filterMap_map]

theorem fragmentsOf_inlined (document : List Definition) : fragmentsOf (inlined document) = [] := by
  simp [fragmentsOf, inlined, List.filterMap_map]

theorem addOperation_eq {total : QueryCost} {op : Operation} {root : Ty}
    (hroot : schema.rootType op.operation = some root) :
    ((addOperation schema multiplier fragments total op).cost,
      (addOperation schema multiplier fragments total op).depth) =
      addFragment (total.cost, total.depth)
        (selectionCost schema fragments multiplier fragments.length root 1 [] op.selections) := by
  simp [addOperation, hroot, addFragment]

theorem under_operations (hm : 0 < multiplier) {ops : List Operation} {hidden : Prop}
    {total total' : QueryCost}
    (h : Under hidden (total.cost, total.depth) (total'.cost, total'.depth)) :
    let l := ops.foldl (addOperation schema multiplier fragments) total
    let r := (ops.map (Operation.inlined fragments)).foldl (addOperation schema multiplier [])
      total'
    Under (hidden ∨ ∃ op ∈ ops, op.Hidden schema fragments) (l.cost, l.depth)
      (r.cost, r.depth) := by
  induction ops generalizing total total' hidden with
  | nil => exact h.congr (by simp)
  | cons op ops ih =>
    cases hroot : schema.rootType op.operation with
    | none =>
      have hsame : addOperation schema multiplier fragments total op = total := by
        simp [addOperation, hroot]
      have hsame' : addOperation schema multiplier [] total' (op.inlined fragments) = total' := by
        simp [addOperation, Operation.inlined, hroot]
      rw [List.map_cons, List.foldl_cons, List.foldl_cons, hsame, hsame']
      apply (ih h).congr
      simp [Operation.Hidden, hroot]
    | some root =>
      have henough : Enough fragments fragments.length [] := enough_nil
      have hop := under_hides schema hm henough (List.Subset.refl []) root 1 op.selections
      have hnext := h.addFragment hop
      rw [← addOperation_eq hroot] at hnext
      have hroot' : schema.rootType (op.inlined fragments).operation = some root := hroot
      have hplain : plainCost schema multiplier
          (inlineFragments fragments fragments.length [] op.selections) root 1 =
          selectionCost schema [] multiplier ([] : Fragments).length root 1 []
            (op.inlined fragments).selections := rfl
      rw [hplain, ← addOperation_eq hroot'] at hnext
      apply (ih hnext).congr
      simp [Operation.Hidden, hroot, or_assoc]

/-- Without a hidden selection a document costs what it costs with its fragments written out, and
with one it costs less. -/
theorem under_inlined (schema : Schema Ty) (hm : 0 < multiplier) (document : List Definition)
    (operationName : Option String) :
    let l := calculateQueryCost schema multiplier document operationName
    let r := calculateQueryCost schema multiplier (inlined document) operationName
    Under (∃ op ∈ operationsOf document, Selected operationName op ∧
      op.Hidden schema (fragmentsOf document)) (l.cost, l.depth) (r.cost, r.depth) := by
  have hselected : ((operationsOf document).map (Operation.inlined (fragmentsOf document))).filter
      (fun op => Selected operationName op) =
      ((operationsOf document).filter fun op => Selected operationName op).map
        (Operation.inlined (fragmentsOf document)) := by
    rw [List.filter_map]
    rfl
  simp only [calculateQueryCost, operationsOf_inlined, fragmentsOf_inlined, hselected]
  apply (under_operations hm (.same (0, 0))).congr
  simp [and_assoc]

/-- The cost and depth of a document are those of the document with its fragments written out, and
with them whatever the limits admit, exactly when no selected operation has a selection hidden
behind a fragment that a sibling before it has spread. -/
theorem cost_inlined_iff (hm : 0 < multiplier) (document : List Definition)
    (operationName : Option String) :
    (calculateQueryCost schema multiplier document operationName =
        calculateQueryCost schema multiplier (inlined document) operationName ∧
      ∀ maxDepth budget,
        Admits maxDepth budget (calculateQueryCost schema multiplier document operationName) →
        Admits maxDepth budget
          (calculateQueryCost schema multiplier (inlined document) operationName)) ↔
    ∀ op ∈ operationsOf document, Selected operationName op →
      ¬ op.Hidden schema (fragmentsOf document) := by
  have hunder := under_inlined schema hm document operationName
  constructor
  · rintro ⟨heq, -⟩ op hop hselected hhidden
    have hlt := hunder.lt ⟨op, hop, hselected, hhidden⟩
    rw [heq] at hlt
    exact absurd hlt (Nat.lt_irrefl _)
  · intro hshown
    have heq := hunder.eq fun ⟨op, hop, hselected, hhidden⟩ => hshown op hop hselected hhidden
    have hsame : calculateQueryCost schema multiplier document operationName =
        calculateQueryCost schema multiplier (inlined document) operationName := by
      obtain ⟨hcost, hdepth⟩ := Prod.ext_iff.mp heq
      exact QueryCost.ext hcost hdepth
    exact ⟨hsame, fun _ _ h => hsame ▸ h⟩

end Results

section Examples

inductive NodeSchemaType where
  | query
  | node
  | scalar
  deriving DecidableEq, Repr

def nodeSchema : Schema NodeSchemaType where
  rootType
    | .query => some .query
    | _ => none
  fields
    | .query, "node" => some ⟨.node, false⟩
    | .node, "id" => some ⟨.scalar, false⟩
    | .node, "neighbours" => some ⟨.node, true⟩
    | _, _ => none
  isObject ty := ty != .scalar

def document (selections : Selections) : List Definition :=
  [.operation ⟨.query, none, .field "node" selections .nil⟩,
    .fragment "F" (.field "neighbours" (.leaf "id" .nil) .nil)]

/-- `{ node { neighbours { ...F } ...F } }` -/
def spreadLast : List Definition :=
  document (.field "neighbours" (.fragmentSpread "F" .nil) (.fragmentSpread "F" .nil))

/-- `{ node { ...F neighbours { ...F } } }` -/
def spreadFirst : List Definition :=
  document (.fragmentSpread "F" (.field "neighbours" (.fragmentSpread "F" .nil) .nil))

theorem cost_inlined_spread_last :
    calculateQueryCost nodeSchema DEFAULT_LIST_MULTIPLIER spreadLast none = ⟨123, 4⟩ ∧
      ∀ op ∈ operationsOf spreadLast, Selected none op →
        ¬ op.Hidden nodeSchema (fragmentsOf spreadLast) := by
  have hcost : calculateQueryCost nodeSchema DEFAULT_LIST_MULTIPLIER spreadLast none =
      ⟨123, 4⟩ := by
    decide +kernel
  have hinlined : calculateQueryCost nodeSchema DEFAULT_LIST_MULTIPLIER (inlined spreadLast) none =
      ⟨123, 4⟩ := by
    decide +kernel
  have hm : 0 < DEFAULT_LIST_MULTIPLIER := by decide
  refine ⟨hcost, (cost_inlined_iff hm spreadLast none).mp ⟨?_, ?_⟩⟩
  · rw [hcost, hinlined]
  · rw [hcost, hinlined]
    exact fun _ _ h => h

/-- The fragment spread first hides itself from the field after it, and the query passes a budget
that its expansion exceeds. -/
theorem sibling_spread_hidden : ¬ ∀ (document : List Definition) (operationName : Option String),
    calculateQueryCost nodeSchema DEFAULT_LIST_MULTIPLIER document operationName =
        calculateQueryCost nodeSchema DEFAULT_LIST_MULTIPLIER (inlined document) operationName ∧
      ∀ maxDepth budget,
        Admits maxDepth budget
          (calculateQueryCost nodeSchema DEFAULT_LIST_MULTIPLIER document operationName) →
        Admits maxDepth budget
          (calculateQueryCost nodeSchema DEFAULT_LIST_MULTIPLIER (inlined document)
            operationName) := by
  intro h
  have hcost : calculateQueryCost nodeSchema DEFAULT_LIST_MULTIPLIER spreadFirst none =
      ⟨13, 3⟩ := by
    decide +kernel
  have hinlined : calculateQueryCost nodeSchema DEFAULT_LIST_MULTIPLIER (inlined spreadFirst) none =
      ⟨123, 4⟩ := by
    decide +kernel
  have hadmits := (h spreadFirst none).2 DEFAULT_MAX_DEPTH 100
  rw [hcost, hinlined] at hadmits
  have hover := (hadmits ⟨by decide, by decide⟩).2 (by decide)
  exact absurd hover (by decide)

end Examples

end GraphqlCost
