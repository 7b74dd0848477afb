import Prenex.Builtin
/-!
# Types

A type is a head applied to any number of types. The head is a constructor, a variable, or a skolem,
which stands for a variable that may not be instantiated. A variable may be applied to arguments
too.

`==` compares types node by node and constructors by their fingerprints alone.
-/

namespace Prenex

/-- The number of a variable or a skolem. -/
abbrev Index := UInt32

/-- How many indices there are. -/
def indexCount : Nat := 4294967296

inductive Head where
  | con (c : Constructor)
  | var (i : Index)
  | skolem (i : Index)

namespace Head

def var? : Head → Option Index
  | .var i => some i
  | _ => none

def con? : Head → Option Constructor
  | .con c => some c
  | _ => none

def same : Head → Head → Bool
  | .con c, .con d => c == d
  | .var i, .var j => i == j
  | .skolem i, .skolem j => i == j
  | _, _ => false

instance : BEq Head := ⟨same⟩

end Head

inductive Ty where
  | app (head : Head) (args : List Ty)

namespace Ty

def head : Ty → Head
  | .app h _ => h

def args : Ty → List Ty
  | .app _ ts => ts

/-! ## Building -/

def con (c : Constructor) (ts : List Ty) : Ty := .app (.con c) ts

def var (i : Index) : Ty := .app (.var i) []

def fn (a b : Ty) : Ty := .con Builtin.fn [a, b]

def list (t : Ty) : Ty := .con Builtin.list [t]

/-- No element gives the unit type, and a single one stands for itself. -/
def tuple : List Ty → Ty
  | [] => .con Builtin.unit []
  | [t] => t
  | ts => .con (Builtin.named (Builtin.tupleName ts.length)) ts

/-- Appends arguments. -/
def applyTo : Ty → List Ty → Ty
  | .app h ts, extra => .app h (ts ++ extra)

/-- The head without its arguments. -/
def bare (t : Ty) : Ty := .app t.head []

/-! ## Taking apart -/

/-- A variable and the arguments it is applied to. -/
def asVariable? : Ty → Option (Index × List Ty)
  | .app (.var i) ts => some (i, ts)
  | _ => none

/-- Parameter and result of a function type. -/
def asFunction? : Ty → Option (Ty × Ty)
  | .app (.con c) [a, b] => if c == Builtin.fn then some (a, b) else none
  | _ => none

/-! ## Recursion and induction -/

section

variable {α : Type}

mutual

/-- Works from the leaves up: `f` gets the head and what the arguments gave. -/
def fold (f : Head → List α → α) : Ty → α
  | .app h ts => f h (foldAll f ts)

def foldAll (f : Head → List α → α) : List Ty → List α
  | [] => []
  | t :: ts => fold f t :: foldAll f ts

end

theorem foldAll_eq_map (f : Head → List α → α) (ts : List Ty) : foldAll f ts = ts.map (fold f) := by
  induction ts with
  | nil => rfl
  | cons t ts ih => rw [foldAll, ih, List.map_cons]

@[simp] theorem fold_app (f : Head → List α → α) (h : Head) (ts : List Ty) :
    fold f (.app h ts) = f h (ts.map (fold f)) := by
  rw [fold, foldAll_eq_map]

end

/-- A property holds of every type if it passes from the arguments to the application. -/
@[elab_as_elim, induction_eliminator]
theorem inductionOn {P : Ty → Prop} (t : Ty)
    (app : ∀ (h : Head) (ts : List Ty), (∀ a ∈ ts, P a) → P (.app h ts)) : P t :=
  @Ty.rec P (fun ts => ∀ a ∈ ts, P a) app
    (fun _ h => by cases h)
    (fun _ _ ht hts a ha => by
      rcases List.mem_cons.mp ha with rfl | ha
      · exact ht
      · exact hts a ha) t

/-! ## Comparing -/

mutual

/-- Looks at the heads, then at how many arguments there are, then at the arguments from left to
right, and stops at the first difference. -/
def same : Ty → Ty → Bool
  | .app h ts, .app k us => h == k && ts.length == us.length && sameAll ts us

def sameAll : List Ty → List Ty → Bool
  | [], [] => true
  | t :: ts, u :: us => same t u && sameAll ts us
  | _, _ => false

end

instance : BEq Ty := ⟨same⟩

theorem sameAll_eq_beq (ts us : List Ty) : sameAll ts us = (ts == us) := by
  induction ts generalizing us with
  | nil => cases us <;> rfl
  | cons t ts ih =>
    cases us with
    | nil => rfl
    | cons u us => rw [sameAll, ih]; rfl

theorem length_eq_of_sameAll {ts us : List Ty} (h : sameAll ts us = true) :
    ts.length = us.length := by
  induction ts generalizing us with
  | nil =>
    cases us with
    | nil => rfl
    | cons u us => cases h
  | cons t ts ih =>
    cases us with
    | nil => cases h
    | cons u us =>
      rw [sameAll, Bool.and_eq_true] at h
      rw [List.length_cons, List.length_cons, ih h.2]

theorem app_beq_app (h k : Head) (ts us : List Ty) :
    (Ty.app h ts == Ty.app k us) = (h == k && ts == us) := by
  show same _ _ = _
  rw [same, ← sameAll_eq_beq, Bool.and_assoc]
  congr 1
  rw [Bool.eq_iff_iff, Bool.and_eq_true]
  exact ⟨And.right, fun hs => ⟨beq_iff_eq.mpr (length_eq_of_sameAll hs), hs⟩⟩

/-! ## Size and variables -/

/-- The number of nodes. -/
def size : Ty → Nat := fold fun _ sizes => sizes.foldr (· + ·) 1

def totalSize : List Ty → Nat
  | [] => 0
  | t :: ts => t.size + totalSize ts

@[simp] theorem size_app (h : Head) (ts : List Ty) : size (.app h ts) = 1 + totalSize ts := by
  rw [size, fold_app]
  induction ts with
  | nil => rfl
  | cons t ts ih =>
    rw [List.map_cons, List.foldr_cons, ih, totalSize, size]
    omega

@[simp] theorem totalSize_append (ts us : List Ty) :
    totalSize (ts ++ us) = totalSize ts + totalSize us := by
  induction ts with
  | nil => simp [totalSize]
  | cons t ts ih =>
    rw [List.cons_append, totalSize, totalSize, ih]
    omega

theorem size_pos (t : Ty) : 0 < t.size := by
  cases t
  rw [size_app]
  omega

mutual

/-- The variables of a type in front of some others. -/
def occurrencesBefore : Ty → List Index → List Index
  | .app h ts, rest => h.var?.toList ++ occurrencesAllBefore ts rest

def occurrencesAllBefore : List Ty → List Index → List Index
  | [], rest => rest
  | t :: ts, rest => occurrencesBefore t (occurrencesAllBefore ts rest)

end

/-- Every place where a variable stands, from left to right, a head before its arguments. -/
def occurrences (t : Ty) : List Index := t.occurrencesBefore []

theorem occurrencesAllBefore_eq_append {ts : List Ty}
    (h : ∀ t ∈ ts, ∀ rest, t.occurrencesBefore rest = t.occurrences ++ rest) (rest : List Index) :
    occurrencesAllBefore ts rest = (ts.map occurrences).flatten ++ rest := by
  induction ts with
  | nil => rfl
  | cons t ts ih =>
    rw [occurrencesAllBefore, h t List.mem_cons_self,
      ih fun u hu => h u (List.mem_cons_of_mem _ hu), List.map_cons, List.flatten_cons,
      List.append_assoc]

theorem occurrencesBefore_eq_append (t : Ty) (rest : List Index) :
    t.occurrencesBefore rest = t.occurrences ++ rest := by
  induction t generalizing rest with
  | app h ts ih =>
    rw [occurrences, occurrencesBefore, occurrencesBefore, occurrencesAllBefore_eq_append ih,
      occurrencesAllBefore_eq_append ih, List.append_nil, List.append_assoc]

@[simp] theorem occurrences_app (h : Head) (ts : List Ty) :
    occurrences (.app h ts) = h.var?.toList ++ (ts.map occurrences).flatten := by
  rw [occurrences, occurrencesBefore,
    occurrencesAllBefore_eq_append fun t _ => occurrencesBefore_eq_append t, List.append_nil]

/-- The variables in the order in which they first occur. -/
def vars (t : Ty) : List Index := t.occurrences.eraseDups

mutual

/-- Whether some head has a property. Looks from left to right, at a head before its arguments, and
stops at the first that has it. -/
def anyHead (p : Head → Bool) : Ty → Bool
  | .app h ts => p h || anyHeadAmong p ts

def anyHeadAmong (p : Head → Bool) : List Ty → Bool
  | [] => false
  | t :: ts => anyHead p t || anyHeadAmong p ts

end

theorem anyHeadAmong_eq_any (p : Head → Bool) (ts : List Ty) :
    anyHeadAmong p ts = ts.any (anyHead p) := by
  induction ts with
  | nil => rfl
  | cons t ts ih => rw [anyHeadAmong, ih, List.any_cons]

theorem anyHead_app (p : Head → Bool) (h : Head) (ts : List Ty) :
    anyHead p (.app h ts) = (p h || ts.any (anyHead p)) := by
  rw [anyHead, anyHeadAmong_eq_any]

def occurs (t : Ty) (i : Index) : Bool := t.anyHead (·.var? == some i)

@[simp] theorem occurs_app (i : Index) (h : Head) (ts : List Ty) :
    occurs (.app h ts) i = (h.var? == some i || ts.any (·.occurs i)) :=
  anyHead_app _ h ts

theorem occurs_iff_mem_occurrences (i : Index) (t : Ty) :
    t.occurs i = true ↔ i ∈ t.occurrences := by
  induction t with
  | app h ts ih =>
    simp only [occurs_app, occurrences_app, Bool.or_eq_true, beq_iff_eq, List.any_eq_true,
      List.mem_append, Option.mem_toList, List.mem_flatten, List.mem_map]
    constructor
    · rintro (h | ⟨t, ht, h⟩)
      · exact .inl h
      · exact .inr ⟨_, ⟨t, ht, rfl⟩, (ih t ht).mp h⟩
    · rintro (h | ⟨_, ⟨t, ht, rfl⟩, h⟩)
      · exact .inl h
      · exact .inr ⟨t, ht, (ih t ht).mpr h⟩

/-- Has no variable. Skolems are allowed. -/
def isGround (t : Ty) : Bool := !t.anyHead (·.var?.isSome)

@[simp] theorem isGround_app (h : Head) (ts : List Ty) :
    isGround (.app h ts) = (h.var?.isNone && ts.all isGround) := by
  rw [isGround, anyHead_app, Bool.not_or, Option.not_isSome, List.not_any_eq_all_not]
  rfl

end Ty

end Prenex
