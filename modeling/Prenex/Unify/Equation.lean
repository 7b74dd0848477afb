import Prenex.TypeError
import Prenex.Distinct
import Prenex.Ty.Instantiate
/-!
# One equation

What to do with `left = right`. Equal sides need nothing. A bare variable on the left is bound.
Applied to arguments it is equated with the head of the right side, and the arguments are paired. A
variable that stands only on the right is brought to the left. Two other heads must agree, and their
arguments are paired.

The move depends on the equation alone. Each move that gives new equations makes them lighter, and
none brings in a variable.
-/

namespace Prenex

structure Equation where
  left : Ty
  right : Ty

inductive Move where
  | drop
  | bind (x : Index) (t : Ty)
  | replace (es : List Equation)
  | fail (e : TypeError)

namespace Equation

/-- Equates the arguments one by one, behind the equations in `front`. Their number must agree. -/
def pairArgs (e : Equation) (front : List Equation) : Move :=
  if e.left.args.length = e.right.args.length then
    .replace (front ++ List.zipWith Equation.mk e.left.args e.right.args)
  else .fail (.mismatch e.left e.right)

def move (e : Equation) : Move :=
  if e.left == e.right then .drop
  else
    match e.left.head, e.right.head with
    | .var x, _ =>
      if e.left.args.isEmpty then
        if e.right.occurs x then .fail (.occursCheck x e.right) else .bind x e.right
      else e.pairArgs [⟨.var x, e.right.bare⟩]
    | _, .var _ => .replace [⟨e.right, e.left⟩]
    | h, k => if h == k then e.pairArgs [] else .fail (.mismatch e.left.bare e.right.bare)

/-- The moves one by one, each with the form of the equation that leads to it. -/
inductive Rule : Equation → Move → Prop
  | same {l r : Ty} : (l == r) = true → Rule ⟨l, r⟩ .drop
  | bind {x : Index} {r : Ty} : (Ty.var x == r) = false → r.occurs x = false →
      Rule ⟨.var x, r⟩ (.bind x r)
  | infinite {x : Index} {r : Ty} : (Ty.var x == r) = false → r.occurs x = true →
      Rule ⟨.var x, r⟩ (.fail (.occursCheck x r))
  | applied {x : Index} {ts : List Ty} {r : Ty} : (Ty.app (.var x) ts == r) = false → ts ≠ [] →
      ts.length = r.args.length →
      Rule ⟨.app (.var x) ts, r⟩ (.replace (⟨.var x, r.bare⟩ :: List.zipWith Equation.mk ts r.args))
  | appliedCount {x : Index} {ts : List Ty} {r : Ty} : (Ty.app (.var x) ts == r) = false → ts ≠ [] →
      ts.length ≠ r.args.length →
      Rule ⟨.app (.var x) ts, r⟩ (.fail (.mismatch (.app (.var x) ts) r))
  | swap {l : Ty} {y : Index} {us : List Ty} :
      (l == Ty.app (.var y) us) = false → l.head.var? = none →
      Rule ⟨l, .app (.var y) us⟩ (.replace [⟨.app (.var y) us, l⟩])
  | pair {h k : Head} {ts us : List Ty} : (Ty.app h ts == Ty.app k us) = false → h.var? = none →
      k.var? = none → (h == k) = true → ts.length = us.length →
      Rule ⟨.app h ts, .app k us⟩ (.replace (List.zipWith Equation.mk ts us))
  | pairCount {h k : Head} {ts us : List Ty} :
      (Ty.app h ts == Ty.app k us) = false → h.var? = none →
      k.var? = none → (h == k) = true → ts.length ≠ us.length →
      Rule ⟨.app h ts, .app k us⟩ (.fail (.mismatch (.app h ts) (.app k us)))
  | clash {h k : Head} {ts us : List Ty} : (Ty.app h ts == Ty.app k us) = false → h.var? = none →
      k.var? = none → (h == k) = false →
      Rule ⟨.app h ts, .app k us⟩ (.fail (.mismatch (.app h []) (.app k [])))

theorem rule_pairArgs_nil {h k : Head} {ts us : List Ty}
    (hne : (Ty.app h ts == Ty.app k us) = false) (hh : h.var? = none) (hk : k.var? = none)
    (hhk : (h == k) = true) :
    Rule ⟨.app h ts, .app k us⟩ ((Equation.mk (.app h ts) (.app k us)).pairArgs []) := by
  unfold pairArgs
  split
  · exact .pair hne hh hk hhk ‹_›
  · exact .pairCount hne hh hk hhk ‹_›

/-- Every move follows a rule. -/
theorem rule (e : Equation) : Rule e e.move := by
  obtain ⟨⟨h, ts⟩, r⟩ := e
  unfold move
  by_cases hne : (Ty.app h ts == r) = true
  · rw [if_pos hne]
    exact .same hne
  rw [if_neg hne]
  rw [Bool.not_eq_true] at hne
  cases h with
  | var x =>
    cases ts with
    | nil =>
      by_cases hx : r.occurs x = true
      · simp only [Ty.head, Ty.args, List.isEmpty_nil, if_true, if_pos hx]
        exact .infinite hne hx
      · rw [Bool.not_eq_true] at hx
        simp only [Ty.head, Ty.args, List.isEmpty_nil, if_true, hx]
        exact .bind hne hx
    | cons t ts =>
      simp only [Ty.head, Ty.args.eq_1, List.isEmpty_cons, Bool.false_eq_true, if_false, pairArgs]
      by_cases hlen : (t :: ts).length = r.args.length
      · rw [if_pos hlen]
        exact .applied hne (by simp) hlen
      · rw [if_neg hlen]
        exact .appliedCount hne (by simp) hlen
  | con c =>
    obtain ⟨k, us⟩ := r
    cases k with
    | var y => exact .swap hne rfl
    | skolem j => exact .clash hne rfl rfl rfl
    | con d =>
      simp only [Ty.head]
      split
      · exact rule_pairArgs_nil hne rfl rfl ‹_›
      · exact .clash hne rfl rfl (Bool.eq_false_iff.mpr ‹_›)
  | skolem i =>
    obtain ⟨k, us⟩ := r
    cases k with
    | var y => exact .swap hne rfl
    | con d => exact .clash hne rfl rfl rfl
    | skolem j =>
      simp only [Ty.head]
      split
      · exact rule_pairArgs_nil hne rfl rfl ‹_›
      · exact .clash hne rfl rfl (Bool.eq_false_iff.mpr ‹_›)

def substitute (e : Equation) (x : Index) (t : Ty) : Equation :=
  ⟨e.left.substitute x t, e.right.substitute x t⟩

/-! ## Weight and variables -/

def occurrences (e : Equation) : List Index := e.left.occurrences ++ e.right.occurrences

/-- The variable stands on the right only, so the sides must be swapped. -/
def backwards (e : Equation) : Bool := e.left.head.var?.isNone && e.right.head.var?.isSome

/-- Nodes count twice, less one node for each equation: that is what splitting off the head of an
applied variable costs. A swap costs one. -/
def weight (e : Equation) : Nat := 2 * (e.left.size + e.right.size - 1) + e.backwards.toNat

def totalWeight : List Equation → Nat
  | [] => 0
  | e :: es => e.weight + totalWeight es

theorem totalWeight_append (es fs : List Equation) :
    totalWeight (es ++ fs) = totalWeight es + totalWeight fs := by
  induction es with
  | nil => simp [totalWeight]
  | cons e es ih =>
    rw [List.cons_append, totalWeight, totalWeight, ih]
    omega

theorem weight_pos (e : Equation) : 0 < e.weight := by
  have := e.left.size_pos
  have := e.right.size_pos
  unfold weight
  omega

theorem totalWeight_zipWith (ts us : List Ty) (h : ts.length = us.length) :
    totalWeight (List.zipWith Equation.mk ts us) + ts.length ≤
      2 * (Ty.totalSize ts + Ty.totalSize us) := by
  induction ts generalizing us with
  | nil => simp [totalWeight]
  | cons t ts ih =>
    cases us with
    | nil => simp at h
    | cons u us =>
      have := ih us (by simpa using h)
      have := t.size_pos
      have := u.size_pos
      have := Bool.toNat_le (Equation.mk t u).backwards
      simp only [totalWeight, List.zipWith_cons_cons, Ty.totalSize, weight, List.length_cons] at *
      omega

theorem occurrences_zipWith_subset (ts us : List Ty) :
    (List.zipWith Equation.mk ts us).flatMap occurrences ⊆
      (ts.map Ty.occurrences).flatten ++ (us.map Ty.occurrences).flatten := by
  induction ts generalizing us with
  | nil => simp
  | cons t ts ih =>
    cases us with
    | nil => simp
    | cons u us =>
      intro i hi
      have := @ih us i
      simp only [List.zipWith_cons_cons, List.flatMap_cons, occurrences, List.mem_append,
        List.map_cons, List.flatten_cons] at *
      grind

theorem totalWeight_lt_of_move {e : Equation} {es : List Equation} (h : e.move = .replace es) :
    totalWeight es < e.weight := by
  have hrule := e.rule
  rw [h] at hrule
  cases hrule with
  | @applied x ts r _ hne hlen =>
    have := totalWeight_zipWith ts r.args hlen
    have := List.length_pos_iff.mpr hne
    cases r
    simp [totalWeight, weight, backwards, Ty.var, Ty.bare, Ty.head, Ty.args, Head.var?,
      Ty.totalSize] at *
    omega
  | @swap l y us _ hl =>
    have hbefore : (mk l (.app (.var y) us)).backwards = true := by
      unfold backwards
      rw [hl]
      rfl
    have hafter : (mk (.app (.var y) us) l).backwards = false := rfl
    simp only [totalWeight, weight, hbefore, hafter, Bool.toNat_true, Bool.toNat_false]
    omega
  | @pair h k ts us _ _ _ _ hlen =>
    have := totalWeight_zipWith ts us hlen
    simp [weight] at *
    omega

theorem occurrences_subset_of_move {e : Equation} {es : List Equation} (h : e.move = .replace es) :
    es.flatMap occurrences ⊆ e.occurrences := by
  have hrule := e.rule
  rw [h] at hrule
  intro i hi
  cases hrule with
  | @applied x ts r _ hne hlen =>
    have := @occurrences_zipWith_subset ts r.args i
    cases r
    simp [occurrences, Ty.var, Ty.bare, Ty.head, Ty.args, Head.var?] at *
    grind
  | @swap l y us _ hl =>
    simp [occurrences] at *
    grind
  | @pair h k ts us _ _ _ _ hlen =>
    have := @occurrences_zipWith_subset ts us i hi
    simp [occurrences] at *
    grind

theorem move_eq_bind {e : Equation} {x : Index} {t : Ty} (h : e.move = .bind x t) :
    e = ⟨.var x, t⟩ ∧ x ∉ t.occurrences := by
  have hrule := e.rule
  rw [h] at hrule
  cases hrule with
  | bind _ hx => exact ⟨rfl, by rwa [← Ty.occurs_iff_mem_occurrences, Bool.not_eq_true]⟩

theorem occurrences_substitute_subset (e : Equation) (x : Index) (t : Ty) (i : Index)
    (h : i ∈ (e.substitute x t).occurrences) : i ∈ t.occurrences ∨ i ∈ e.occurrences ∧ i ≠ x := by
  simp only [occurrences, substitute, List.mem_append] at *
  rcases h with h | h
  · exact (Ty.mem_occurrences_substitute h).imp_right (.imp_left .inl)
  · exact (Ty.mem_occurrences_substitute h).imp_right (.imp_left .inr)

end Equation

end Prenex
