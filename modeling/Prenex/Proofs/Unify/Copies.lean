import Prenex.Proofs.Substitution
import Prenex.Proofs.Unify.MostGeneral

/-!
# Two copies of one type

Two copies differ in the numbers of their variables only. A run on them takes the copies apart in
step, so it never meets different heads or different numbers of arguments. All that it binds is a
variable of the first copy, to the same variable of the second. At the end it has made the first
copy into the second.
-/

namespace Prenex

namespace Ty

theorem rename_app_var (m : Index → Index) (i : Index) (ts : List Ty) :
    (Ty.app (.var i) ts).rename m = .app (.var (m i)) (ts.map (·.rename m)) := by
  unfold rename
  rw [instantiate_var_app]
  rfl

theorem rename_app_rigid (m : Index → Index) {h : Head} (hh : h.var? = none) (ts : List Ty) :
    (Ty.app h ts).rename m = .app h (ts.map (·.rename m)) :=
  instantiate_of_var?_eq_none hh _ ts

theorem substitute_rename (t : Ty) (m : Index → Index) (x y : Index) :
    (t.rename m).substitute x (.var y) = t.rename fun i => if m i = x then y else m i := by
  rw [substitute_eq_instantiate, instantiate_rename]
  apply instantiate_congr
  intro i _
  dsimp only
  split <;> rfl

end Ty

/-- The first numbers are told apart, and no first number is a second one, unless both are for the
same variable. -/
structure Apart (xs : List Index) (m k : Index → Index) : Prop where
  left : ∀ i ∈ xs, ∀ j ∈ xs, m i = m j → i = j
  across : ∀ i ∈ xs, ∀ j ∈ xs, m i = k j → i = j

variable {xs : List Index} {m k : Index → Index}

namespace Equation

/-- The sides are copies of a type with variables from `xs`, numbered by `m` and by `k`. -/
def OfCopies (xs : List Index) (m k : Index → Index) (e : Equation) : Prop :=
  ∃ t : Ty, t.occurrences ⊆ xs ∧ e = ⟨t.rename m, t.rename k⟩

theorem ofCopies_zipWith {ts : List Ty} (hts : ∀ t ∈ ts, t.occurrences ⊆ xs) :
    ∀ e ∈ List.zipWith Equation.mk (ts.map (·.rename m)) (ts.map (·.rename k)),
      e.OfCopies xs m k := by
  intro e he
  rw [List.zipWith_map, List.zipWith_self] at he
  obtain ⟨t, ht, rfl⟩ := List.mem_map.mp he
  exact ⟨t, hts t ht, rfl⟩

theorem OfCopies.move_cases {e : Equation} (he : e.OfCopies xs m k) :
    e.move = .drop ∨
    (∃ i ∈ xs, m i ≠ k i ∧ e.move = .bind (m i) (.var (k i))) ∨
    ∃ es, e.move = .replace es ∧ ∀ e' ∈ es, e'.OfCopies xs m k := by
  obtain ⟨⟨h, ts⟩, hxs, rfl⟩ := he
  by_cases hsame : ((Ty.app h ts).rename m == (Ty.app h ts).rename k) = true
  · exact .inl (move_eq_of_rule (.same hsame))
  rw [Bool.not_eq_true] at hsame
  have hargs : ∀ t ∈ ts, t.occurrences ⊆ xs := by
    intro t ht i hi
    exact hxs (Ty.mem_occurrences_app.mpr (.inr ⟨t, ht, hi⟩))
  have hlen : (ts.map (·.rename m)).length = (ts.map (·.rename k)).length := by simp
  right
  rcases hh : h.var? with _ | i
  · right
    rw [Ty.rename_app_rigid m hh, Ty.rename_app_rigid k hh] at hsame ⊢
    have hhead : (h == h) = true := (Head.representative_eq_iff h h).mp rfl
    exact ⟨_, move_eq_of_rule (.pair hsame hh hh hhead hlen), ofCopies_zipWith hargs⟩
  · obtain rfl := Head.var?_eq_some_iff.mp hh
    have hi : i ∈ xs := hxs (by simp)
    rw [Ty.rename_app_var, Ty.rename_app_var] at hsame ⊢
    by_cases hts : ts = []
    · subst hts
      rw [List.map_nil, List.map_nil] at hsame ⊢
      have hne : m i ≠ k i := by
        intro heq
        rw [heq, BEq.rfl] at hsame
        cases hsame
      have hoccurs : (Ty.var (k i)).occurs (m i) = false := by
        simpa [Ty.var] using hne.symm
      exact .inl ⟨i, hi, hne, move_eq_of_rule (.bind hsame hoccurs)⟩
    · -- The variable in front is a copy too, of a type without arguments.
      have hfront : (Equation.mk (.var (m i)) (.var (k i))).OfCopies xs m k :=
        ⟨.var i, by simpa using hi, by simp [Ty.rename]⟩
      refine .inr ⟨_, move_eq_of_rule (.applied hsame (by simpa using hts) hlen), ?_⟩
      exact List.forall_mem_cons.mpr ⟨hfront, ofCopies_zipWith hargs⟩

end Equation

namespace Problem

/-! ## The invariant -/

/-- So far the run renames by `ρ`, and `ρ` only takes variables of the first copy to the second. -/
structure MergedBy (xs : List Index) (m k ρ : Index → Index) (p : Problem) : Prop where
  image : ∀ j, p.solved.image j = .var (ρ j)
  moved : ∀ j, ρ j ≠ j → ∃ i ∈ xs, j = m i ∧ ρ j = k i
  pending : ∀ e ∈ p.pending, e.OfCopies xs (fun i => ρ (m i)) k

variable {ρ : Index → Index} {p q : Problem}

theorem mergedBy_start {t : Ty} (ht : t.occurrences ⊆ xs) :
    MergedBy xs m k id ⟨.empty, [⟨t.rename m, t.rename k⟩]⟩ where
  image _ := rfl
  moved _ h := absurd rfl h
  pending e he := by
    obtain rfl := List.mem_singleton.mp he
    exact ⟨t, ht, rfl⟩

theorem MergedBy.second_fixed (h : MergedBy xs m k ρ p) (hapart : Apart xs m k) {i : Index}
    (hi : i ∈ xs) :
    ρ (k i) = k i := by
  by_contra hmoved
  obtain ⟨j, hj, hkj, hρ⟩ := h.moved (k i) hmoved
  obtain rfl := hapart.across j hj i hi hkj.symm
  exact hmoved hρ

theorem MergedBy.first_fixed (h : MergedBy xs m k ρ p) (hapart : Apart xs m k) {i : Index}
    (hi : i ∈ xs) (hne : ρ (m i) ≠ k i) : ρ (m i) = m i := by
  by_contra hmoved
  obtain ⟨j, hj, hmj, hρ⟩ := h.moved (m i) hmoved
  obtain rfl := hapart.left i hi j hj hmj
  exact hne hρ

theorem mergedBy_bind {s : Substitution} {i : Index} {rest : List Equation}
    (hapart : Apart xs m k) (hi : i ∈ xs) (hne : ρ (m i) ≠ k i) (hs : s.lookup (ρ (m i)) = none)
    (h : MergedBy xs m k ρ ⟨s, ⟨.var (ρ (m i)), .var (k i)⟩ :: rest⟩) :
    MergedBy xs m k (fun j => if ρ j = ρ (m i) then k i else ρ j)
      ⟨s.bind (ρ (m i)) (.var (k i)), rest.map (·.substitute (ρ (m i)) (.var (k i)))⟩ := by
  have hfirst := h.first_fixed hapart hi hne
  constructor
  · intro j
    rw [Substitution.image_bind hs, h.image]
    have hsub := Ty.substitute_rename (.var j) ρ (ρ (m i)) (k i)
    simpa [Ty.rename] using hsub
  · intro j hj
    by_cases hji : ρ j = ρ (m i)
    · rw [if_pos hji]
      refine ⟨i, hi, ?_, rfl⟩
      -- If `j` had been moved before, then to the second copy, and `m i` does not stand there.
      by_contra hjm
      obtain ⟨l, hl, -, hρ⟩ := h.moved j (by rw [hji, hfirst]; exact Ne.symm hjm)
      rw [hji, hfirst] at hρ
      obtain rfl := hapart.across i hi l hl hρ
      exact hne (hfirst.trans hρ)
    · rw [if_neg hji] at hj ⊢
      exact h.moved j hj
  · intro e' he'
    obtain ⟨e, he, rfl⟩ := List.mem_map.mp he'
    obtain ⟨t, ht, rfl⟩ := h.pending e (List.mem_cons_of_mem _ he)
    refine ⟨t, ht, ?_⟩
    have hsecond : (t.rename k).substitute (ρ (m i)) (.var (k i)) = t.rename k := by
      rw [Ty.substitute_rename]
      apply Ty.rename_congr
      intro j hj
      rw [if_neg]
      intro hkj
      rw [hfirst] at hkj
      obtain rfl := hapart.across i hi j (ht (Ty.mem_vars.mp hj)) hkj.symm
      exact hne (hfirst.trans hkj.symm)
    simp only [Equation.substitute, Ty.substitute_rename, hsecond]

theorem MergedBy.next (hapart : Apart xs m k) (hp : p.Resolved) (h : MergedBy xs m k ρ p)
    (hnext : Next p q) :
    ∃ ρ', MergedBy xs m k ρ' q := by
  rcases hnext with hmove | @⟨s, x, t, rest, hmove⟩ | @⟨s, e, es, rest, hmove⟩
  · exact ⟨ρ, h.image, h.moved, fun e he => h.pending e (List.mem_cons_of_mem _ he)⟩
  · have hcases := (h.pending _ List.mem_cons_self).move_cases
    rw [hmove] at hcases
    rcases hcases with hdrop | ⟨i, hi, hne, ⟨⟩⟩ | ⟨_, ⟨⟩, -⟩
    · cases hdrop
    · exact ⟨_, mergedBy_bind hapart hi hne
        (lookup_eq_none_of_front hp (by simp [Equation.occurrences])) h⟩
  · have hcases := (h.pending _ List.mem_cons_self).move_cases
    rw [hmove] at hcases
    rcases hcases with hdrop | ⟨_, -, -, ⟨⟩⟩ | ⟨_, ⟨⟩, hes⟩
    · cases hdrop
    · refine ⟨ρ, h.image, h.moved, List.forall_mem_append.mpr ⟨hes, fun e' he' => ?_⟩⟩
      exact h.pending e' (List.mem_cons_of_mem _ he')

theorem Reaches.mergedBy (hapart : Apart xs m k) (hreach : p.Reaches q) (hp : p.Resolved)
    (h : MergedBy xs m k ρ p) : ∃ ρ', MergedBy xs m k ρ' q := by
  induction hreach with
  | refl => exact ⟨ρ, h⟩
  | tail hreach hnext ih =>
    obtain ⟨ρ', h'⟩ := ih
    exact h'.next hapart (Reaches.resolved hreach hp) hnext

/-! ## The answer -/

/-- Two copies are unified by a renaming that takes the first to the second and nothing else
anywhere. -/
theorem exists_solve_copies {t : Ty} (hapart : Apart t.vars m k) :
    ∃ (s : Substitution) (ρ : Index → Index),
      solve ⟨.empty, [⟨t.rename m, t.rename k⟩]⟩ = .ok s ∧ (∀ j, s.image j = .var (ρ j)) ∧
      (∀ i ∈ t.vars, ρ (m i) = k i) ∧ ∀ j, (∀ i ∈ t.vars, j ≠ m i) → ρ j = j := by
  have hstart : MergedBy t.vars m k id ⟨.empty, [⟨t.rename m, t.rename k⟩]⟩ :=
    mergedBy_start fun _ hi => Ty.mem_vars.mpr hi
  rcases hsolve : solve ⟨.empty, [⟨t.rename m, t.rename k⟩]⟩ with err | s
  · obtain ⟨s, e, rest, hreach, hmove⟩ := reaches_of_solve_error hsolve
    obtain ⟨ρ, h⟩ := hreach.mergedBy hapart (resolved_empty _) hstart
    have hcases := (h.pending e List.mem_cons_self).move_cases
    rw [hmove] at hcases
    rcases hcases with hdrop | ⟨_, -, -, ⟨⟩⟩ | ⟨_, ⟨⟩, -⟩
    cases hdrop
  · obtain ⟨ρ, h⟩ := (reaches_of_solve_ok hsolve).mergedBy hapart (resolved_empty _) hstart
    refine ⟨s, ρ, rfl, h.image, fun i hi => ?_, fun j hj => ?_⟩
    · have hsolved := solvedBy_of_solve_ok hsolve _ List.mem_cons_self
      have himage : s.image = fun j => .var (ρ j) := funext h.image
      rw [Equation.solvedBy_mk, himage] at hsolved
      have hplaces := Ty.occurrences_eq_of_beq hsolved
      have hmap : ∀ k : Index → Index, ((t.rename k).instantiate fun j => .var (ρ j)).occurrences =
          t.occurrences.map fun i => ρ (k i) := by
        intro k
        rw [Ty.instantiate_rename]
        exact Ty.occurrences_rename _ t
      rw [hmap, hmap, List.map_inj_left] at hplaces
      rw [hplaces i (Ty.mem_vars.mp hi), h.second_fixed hapart hi]
    · by_contra hmoved
      obtain ⟨i, hi, hji, -⟩ := h.moved j hmoved
      exact hj i hi hji

end Problem

end Prenex
