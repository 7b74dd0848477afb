import Prenex.Proofs.Ty.Equality
import Prenex.Ty.Printer

/-!
# The characters of a printed type

What each layout writes, as a list of characters, and which types the printer writes legibly: those
whose constructors are the builtin formers or have a word for a name.
-/

namespace Prenex

/-! ## Layouts -/

namespace Builtin

/-- The printer takes the constructor for neither the arrow nor the list. -/
def Apart (c : Constructor) : Prop :=
  c.fingerprint ≠ fn.fingerprint ∧ c.fingerprint ≠ list.fingerprint

instance (c : Constructor) : Decidable (Apart c) := inferInstanceAs (Decidable (_ ∧ _))

end Builtin

namespace Layout

theorem of_fn : Layout.of (.con Builtin.fn) 2 = .arrow := by
  have hself : (Builtin.fn == Builtin.fn) = true := (Constructor.beq_iff _ _).mpr rfl
  simp [Layout.of, hself]

theorem of_list (n : Nat) :
    Layout.of (.con Builtin.list) n = if n = 1 then .brackets else .applied := by
  have hself : (Builtin.list == Builtin.list) = true := (Constructor.beq_iff _ _).mpr rfl
  have hfn : Builtin.list.fingerprint ≠ Builtin.fn.fingerprint := by decide +kernel
  have harity : Builtin.list.tupleArity = none := by decide +kernel
  simp [Layout.of, hself, Constructor.beq_eq_false hfn, harity]

theorem of_apart {c : Constructor} (h : Builtin.Apart c) (n : Nat) :
    Layout.of (.con c) n = if c.tupleArity = some n then .tuple else .applied := by
  simp [Layout.of, Constructor.beq_eq_false h.1, Constructor.beq_eq_false h.2]

/-- Stands in parentheses at the place, when it has `n` arguments. -/
def enclosed (n : Nat) (p : Place) : Layout → Bool
  | .arrow => p != .top
  | .brackets | .tuple => false
  | .applied => p == .argument && n != 0

end Layout

theorem Builtin.tupleArity_tupleName {k : Nat} (hk : 2 ≤ k) :
    (named (tupleName k)).tupleArity = some k := by
  have hname : (named (tupleName k)).name.toList = '(' :: (List.replicate (k - 1) ',' ++ [')']) :=
    String.toList_ofList
  obtain ⟨j, rfl⟩ : ∃ j, k = j + 2 := ⟨k - 2, by omega⟩
  simp [Constructor.tupleArity, hname, List.replicate_succ]

/-! ## Legible types -/

/-- A name of letters and digits that is not read as a variable or a skolem. -/
structure Constructor.IsWord (c : Constructor) : Prop where
  ne_empty : c.name ≠ ""
  all_isAlphanum : c.name.toList.all Char.isAlphanum = true
  not_any : ¬ "ANY".toList <+: c.name.toList
  not_skolem : ¬ "SKOLEM".toList <+: c.name.toList

/-- The constructors that can be read off their names, when they have `n` arguments. An arrow that
does not have two arguments is not among them. -/
inductive Constructor.Legible : Constructor → (n : Nat) → Prop
  | fn : Legible Builtin.fn 2
  | list (n : Nat) : Legible Builtin.list n
  | unit (n : Nat) : Builtin.Apart Builtin.unit → Legible Builtin.unit n
  | tuple {c : Constructor} {k : Nat} (n : Nat) :
      Builtin.tuple? k = some c → Builtin.Apart c → Legible c n
  | word {c : Constructor} (n : Nat) : c.IsWord → Builtin.Apart c → Legible c n

def Head.Legible : Head → (n : Nat) → Prop
  | .con c, n => c.Legible n
  | .var _, _ | .skolem _, _ => True

/-- Of a constructor only the name is left. -/
def Head.plain : Head → Head
  | .con c => .con (Builtin.named c.name)
  | h => h

/-- A head that the printer writes as one token, whatever its arguments. -/
inductive Head.IsToken : Head → Prop
  | var (i : Index) : IsToken (.var i)
  | skolem (i : Index) : IsToken (.skolem i)
  | word {c : Constructor} : c.IsWord → IsToken (.con c)
  | list : IsToken (.con Builtin.list)
  /-- `()` has no comma, and a tuple of `k` elements has `k - 1`. -/
  | commas {c : Constructor} (k : Nat) :
    c.name.toList = '(' :: (List.replicate k ',' ++ [')']) → IsToken (.con c)

theorem Constructor.IsWord.tupleArity_eq_none {c : Constructor} (h : c.IsWord) :
    c.tupleArity = none := by
  unfold tupleArity
  split
  case h_1 rest hname =>
    have hparen := List.all_eq_true.mp h.all_isAlphanum '(' (by simp [hname])
    exact absurd hparen (by decide)
  case h_2 => rfl

theorem Head.Legible.layout_cases {h : Head} {n : Nat} (hh : h.Legible n) :
    h = .con Builtin.fn ∧ n = 2 ∨ h = .con Builtin.list ∧ n = 1 ∨
      (Layout.of h n = .tuple ∧ 2 ≤ n ∧ h.plain = .con (Builtin.named (Builtin.tupleName n))) ∨
      Layout.of h n = .applied ∧ h.IsToken := by
  cases h with
  | var i => exact .inr (.inr (.inr ⟨rfl, .var i⟩))
  | skolem i => exact .inr (.inr (.inr ⟨rfl, .skolem i⟩))
  | con c =>
    cases hh with
    | fn => exact .inl ⟨rfl, rfl⟩
    | list =>
      by_cases hn : n = 1
      · exact .inr (.inl ⟨rfl, hn⟩)
      · exact .inr (.inr (.inr ⟨by rw [Layout.of_list, if_neg hn], .list⟩))
    | unit _ hapart =>
      have harity : Builtin.unit.tupleArity = none := by decide +kernel
      exact .inr (.inr (.inr
        ⟨by rw [Layout.of_apart hapart, harity]; rfl, .commas 0 (by decide +kernel)⟩))
    | @tuple _ k _ hk hapart =>
      obtain ⟨hle, rfl⟩ : 2 ≤ k ∧ Builtin.named (Builtin.tupleName k) = c := by
        unfold Builtin.tuple? at hk
        split at hk
        · cases hk
        · next hlt => exact ⟨by omega, Option.some.inj hk⟩
      have harity := Builtin.tupleArity_tupleName hle
      by_cases hn : n = k
      · subst hn
        exact .inr (.inr (.inl ⟨by rw [Layout.of_apart hapart, harity, if_pos rfl], hle, rfl⟩))
      · have hne : ¬ some k = some n := by simpa using Ne.symm hn
        exact .inr (.inr (.inr ⟨by rw [Layout.of_apart hapart, harity, if_neg hne],
          .commas (k - 1) String.toList_ofList⟩))
    | word _ hword hapart =>
      exact .inr (.inr (.inr
        ⟨by rw [Layout.of_apart hapart, hword.tupleArity_eq_none]; rfl, .word hword⟩))

namespace Ty

def Legible (t : Ty) : Prop := ∀ node ∈ t.preorder, node.1.Legible node.2

theorem legible_app (h : Head) (ts : List Ty) :
    (Ty.app h ts).Legible ↔ h.Legible ts.length ∧ ∀ t ∈ ts, t.Legible := by
  unfold Legible
  simp only [preorder_app, List.forall_mem_cons, List.forall_mem_flatMap]

/-- The shape, the indices, and the names. -/
def plain (t : Ty) : Ty := t.relabel Head.plain

@[simp] theorem plain_app (h : Head) (ts : List Ty) :
    (Ty.app h ts).plain = .app h.plain (ts.map plain) :=
  relabel_app _ h ts

/-! ## Characters -/

/-- The text at a place. -/
def chars (t : Ty) (p : Place) : List Char := (t.textAt p).toList

theorem chars_eq (h : Head) (ts : List Ty) (p : Place) :
    (Ty.app h ts).chars p =
      if (Layout.of h ts.length).enclosed ts.length p then
        '(' :: ((Ty.app h ts).chars .top ++ [')'])
      else (Ty.app h ts).chars .top := by
  simp only [chars, textAt_app]
  cases Layout.of h ts.length <;> cases p <;> cases ts <;>
    simp [assemble, inParens, textsAt, Layout.enclosed]

theorem textsAt_self (p : Place) (ts : List Ty) :
    textsAt p p (ts.map textAt) = ts.map (textAt · p) := by
  cases ts <;> simp [textsAt]

theorem intercalate_cons_eq {α : Type} (x : α) (l : List α) (ls : List (List α)) :
    [x].intercalate (l :: ls) = l ++ ls.flatMap (x :: ·) := by
  induction ls generalizing l with
  | nil => simp
  | cons m ls ih => rw [List.intercalate_cons_cons, ih]; simp

theorem chars_arrow {h : Head} {a b : Ty} (hl : Layout.of h 2 = .arrow) :
    (Ty.app h [a, b]).chars .top =
      a.chars .parameter ++ ' ' :: '-' :: '>' :: ' ' :: b.chars .top := by
  simp [chars, textAt_app, hl, assemble, inParens, textsAt, Layout.first, Layout.later]

theorem chars_brackets {h : Head} {a : Ty} (hl : Layout.of h 1 = .brackets) :
    (Ty.app h [a]).chars .top = '[' :: (a.chars .top ++ [']']) := by
  simp [chars, textAt_app, hl, assemble, textsAt, Layout.first]

theorem chars_tuple {h : Head} {ts : List Ty} (hl : Layout.of h ts.length = .tuple) :
    (Ty.app h ts).chars .top = '(' :: ([','].intercalate (ts.map (chars · .top)) ++ [')']) := by
  simp [chars, textAt_app, hl, assemble, Layout.first, Layout.later, textsAt_self,
    Function.comp_def]

theorem chars_applied {h : Head} {ts : List Ty} (hl : Layout.of h ts.length = .applied) :
    (Ty.app h ts).chars .top = h.text.toList ++ ts.flatMap (fun t => ' ' :: t.chars .argument) := by
  simp [chars, textAt_app, hl, assemble, inParens, Layout.first, Layout.later, textsAt_self,
    intercalate_cons_eq, List.flatMap_map]

end Ty

end Prenex
