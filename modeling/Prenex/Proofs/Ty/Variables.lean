import Prenex.Proofs.Substitution

/-!
# Where the variables are

The list of variables, the search for one of them, the ground test and the flat list of nodes walk
through a type each in its own way. They see the same variables, and the list has them in the order
of their first nodes. Replacing variables brings in those of the images, and takes no node away.
-/

namespace Prenex

section

variable {α β : Type} [BEq β] [LawfulBEq β]

theorem findIdx_filter_eq (f : α → Option β) {p : β → Bool} {c : β} (hc : p c = true) (l : List α) :
    l.findIdx (fun a => (f a).filter p == some c) = l.findIdx (f · == some c) := by
  congr 1
  funext a
  rw [Bool.eq_iff_iff, beq_iff_eq, beq_iff_eq, Option.filter_eq_some_iff]
  exact and_iff_left hc

theorem pairwise_findIdx_eraseDups (f : α → Option β) (l : List α) :
    (l.filterMap f).eraseDups.Pairwise
      fun b c => l.findIdx (f · == some b) < l.findIdx (f · == some c) := by
  -- On any `f`, as the members that are equal to the first one have to be hidden from the rest.
  induction l generalizing f with
  | nil => simp
  | cons a l ih =>
    have hshift : ∀ b, f a ≠ some b →
        (a :: l).findIdx (f · == some b) = l.findIdx (f · == some b) + 1 := by
      intro b hb
      rw [List.findIdx_cons, beq_false_of_ne hb, cond_false]
    rcases ha : f a with _ | b
    · rw [List.filterMap_cons_none ha]
      refine (ih f).imp ?_
      intro c d hlt
      rw [hshift c (by simp [ha]), hshift d (by simp [ha])]
      omega
    · have hother : ∀ c ∈ ((l.filterMap f).filter fun c => !c == b).eraseDups,
          (!c == b) = true ∧ f a ≠ some c := by
        intro c hc
        have hcb := (List.mem_filter.mp (List.mem_eraseDups.mp hc)).2
        refine ⟨hcb, fun hac => ?_⟩
        obtain rfl : b = c := Option.some.inj (ha.symm.trans hac)
        simp at hcb
      rw [List.filterMap_cons_some ha, List.eraseDups_cons, List.pairwise_cons]
      constructor
      · intro c hc
        rw [hshift c (hother c hc).2, List.findIdx_cons, ha]
        simp
      · rw [List.filter_filterMap] at hother ⊢
        refine (ih fun x => (f x).filter fun c => !c == b).imp_of_mem ?_
        intro c d hc hd hlt
        rw [findIdx_filter_eq f (hother c hc).1, findIdx_filter_eq f (hother d hd).1] at hlt
        rw [hshift c (hother c hc).2, hshift d (hother d hd).2]
        omega

end

namespace Ty

/-! ## The flat list -/

theorem occurrences_eq_filterMap_preorder (t : Ty) :
    t.occurrences = t.preorder.filterMap (·.1.var?) := by
  induction t with
  | app h ts ih =>
    have hargs : (ts.map occurrences).flatten = (ts.flatMap preorder).filterMap (·.1.var?) := by
      rw [List.filterMap_flatMap, ← List.flatMap_def]
      exact List.flatMap_congr ih
    rw [occurrences_app, preorder_app, hargs, List.filterMap_cons]
    cases h with
    | con c => rfl
    | var i => rfl
    | skolem i => rfl

/-- The first node with the variable, counted from left to right, a head before its arguments. -/
def firstPlace (t : Ty) (i : Index) : Nat := t.preorder.findIdx (·.1.var? == some i)

theorem pairwise_firstPlace_vars (t : Ty) :
    t.vars.Pairwise fun i j => t.firstPlace i < t.firstPlace j := by
  unfold vars firstPlace
  rw [occurrences_eq_filterMap_preorder]
  exact pairwise_findIdx_eraseDups _ _

theorem vars_eq_nil_iff (t : Ty) : t.vars = [] ↔ t.isGround = true := by
  rw [isGround_iff, List.eq_nil_iff_forall_not_mem, List.eq_nil_iff_forall_not_mem]
  simp only [mem_vars]

/-! ## Under a substitution -/

theorem size_le_size_instantiate (f : Index → Ty) (t : Ty) : t.size ≤ (t.instantiate f).size := by
  induction t with
  | app h ts ih =>
    have hargs : totalSize ts ≤ totalSize (ts.map (instantiate f)) := by
      induction ts with
      | nil => simp
      | cons t ts ihs =>
        have ht := ih t (by simp)
        have hts := ihs fun u hu => ih u (by simp [hu])
        rw [List.map_cons, totalSize, totalSize]
        omega
    have hhead := size_pos ((Ty.app h []).instantiate f)
    rw [instantiate_app, size_applyTo, size_app]
    omega

theorem occurs_apply_iff (s : Substitution) (t : Ty) (i : Index) :
    (s.apply t).occurs i = true ↔ ∃ v, t.occurs v = true ∧ (s.apply (.var v)).occurs i = true := by
  simp only [occurs_iff_mem_occurrences, Substitution.apply_eq_instantiate, instantiate_bare_var]
  exact mem_occurrences_instantiate s.image i t

/-- The variables are listed once each, by their first nodes. They are those that occur, and a type
without any is ground. A substitution puts the variables of their images in their place and makes no
type smaller. -/
theorem vars_tracked (t : Ty) :
    t.vars.Nodup ∧ (t.vars.Pairwise fun i j => t.firstPlace i < t.firstPlace j) ∧
    (∀ i, i ∈ t.vars ↔ t.occurs i = true) ∧ (t.vars = [] ↔ t.isGround = true) ∧
    ∀ s : Substitution,
      (∀ i, (s.apply t).occurs i = true ↔
        ∃ v, t.occurs v = true ∧ (s.apply (.var v)).occurs i = true) ∧
      t.size ≤ (s.apply t).size := by
  refine ⟨t.nodup_vars, t.pairwise_firstPlace_vars, fun i => ?_, t.vars_eq_nil_iff,
    fun s => ⟨?_, ?_⟩⟩
  · rw [mem_vars, occurs_iff_mem_occurrences]
  · exact occurs_apply_iff s t
  · rw [Substitution.apply_eq_instantiate]
    exact size_le_size_instantiate s.image t

end Ty

end Prenex
