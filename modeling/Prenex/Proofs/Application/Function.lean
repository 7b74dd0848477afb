import Prenex.Proofs.Application
import Prenex.Proofs.Instance
import Prenex.Proofs.Ty.Alpha
import Prenex.Proofs.Unify.Copies
import Prenex.Proofs.Unify.Incremental
import Prenex.Proofs.Unify.Invariant
import Prenex.Proofs.Unify.Renumbering
import Prenex.Proofs.Unify.Turned

/-!
# Applying a function type

The parameter is unified with the argument first. What that gives is put to work in the result, and
the fresh variable takes it over. A variable with arguments cannot be taken over, as their number is
not that of a bare variable.

So a function applied to its own parameter gives its result, and a ground argument is accepted
exactly if it is an instance of the parameter.
-/

namespace Prenex

namespace Ty

/-- A variable that has arguments. -/
def AppliedVariable (t : Ty) : Prop := ∃ x ts, ts ≠ [] ∧ t = .app (.var x) ts

theorem not_appliedVariable_of_rigid {t : Ty} (h : t.head.var? = none) : ¬ t.AppliedVariable := by
  rintro ⟨x, ts, -, rfl⟩
  simp at h

theorem not_appliedVariable_instantiate {t : Ty} (h : t.head.var? = none) (f : Index → Ty) :
    ¬ (t.instantiate f).AppliedVariable := by
  obtain ⟨hd, ts⟩ := t
  rw [head_app] at h
  rw [instantiate_of_var?_eq_none h]
  exact not_appliedVariable_of_rigid h

theorem rigid_or_eq_var {t : Ty} (h : ¬ t.AppliedVariable) :
    t.head.var? = none ∨ ∃ x, t = .var x := by
  obtain ⟨hd, ts⟩ := t
  rcases hhd : hd.var? with _ | x
  · exact .inl hhd
  · obtain rfl := Head.var?_eq_some_iff.mp hhd
    by_cases hts : ts = []
    · exact .inr ⟨x, by rw [hts, var]⟩
    · exact absurd ⟨x, ts, hts, rfl⟩ h

theorem not_appliedVariable_of_isGround {t : Ty} (ht : t.isGround = true) :
    ¬ t.AppliedVariable := by
  rintro ⟨x, ts, -, rfl⟩
  simp at ht

theorem appliedVariable_rename_iff (m : Index → Index) (t : Ty) :
    (t.rename m).AppliedVariable ↔ t.AppliedVariable := by
  constructor
  · intro hrenamed
    by_contra h
    rcases rigid_or_eq_var h with hrigid | ⟨x, rfl⟩
    · exact not_appliedVariable_instantiate hrigid _ hrenamed
    · obtain ⟨y, ts, hts, heq⟩ := hrenamed
      rw [var, rename_app_var] at heq
      exact hts (Ty.app.inj heq).2.symm
  · rintro ⟨x, ts, hts, rfl⟩
    exact ⟨m x, _, by simpa using hts, rename_app_var m x ts⟩

theorem rename_fn (m : Index → Index) (p r : Ty) :
    (fn p r).rename m = fn (p.rename m) (r.rename m) := by
  simp [rename, fn, con]

theorem mem_vars_fn {p r : Ty} {i : Index} : i ∈ (fn p r).vars ↔ i ∈ p.vars ∨ i ∈ r.vars := by
  simp [mem_vars, fn, con]

end Ty

namespace Problem

/-! ## A variable that does not occur -/

variable {es : List Equation} {s : Substitution} {x : Index}

theorem lookup_eq_none_of_solve_ok (h : solve ⟨.empty, es⟩ = .ok s)
    (hx : x ∉ es.flatMap Equation.occurrences) :
    s.lookup x = none := by
  by_contra hbound
  obtain ⟨t, ht⟩ := Option.ne_none_iff_exists'.mp hbound
  exact hx (occurrences_subset_of_solve_ok h ht).1

theorem not_mem_apply_of_solve_ok (h : solve ⟨.empty, es⟩ = .ok s)
    (hx : x ∉ es.flatMap Equation.occurrences) {t : Ty} (ht : x ∉ t.occurrences) :
    x ∉ (s.apply t).occurrences := by
  intro hmem
  rw [Substitution.apply_eq_instantiate, Ty.mem_occurrences_instantiate] at hmem
  obtain ⟨v, hv, hxv⟩ := hmem
  unfold Substitution.image at hxv
  rcases hlookup : s.lookup v with _ | u
  · simp only [hlookup, Option.getD_none, Ty.occurrences_var, List.mem_singleton] at hxv
    exact ht (hxv ▸ hv)
  · simp only [hlookup, Option.getD_some] at hxv
    exact hx ((occurrences_subset_of_solve_ok h hlookup).2 hxv)

/-! ## First the parameter, then the result -/

variable {p r a : Ty}

theorem reaches_fn (hp : x ∉ p.occurrences) (hr : x ∉ r.occurrences) :
    Reaches ⟨.empty, [⟨.fn p r, .fn a (.var x)⟩]⟩ ⟨.empty, [⟨p, a⟩, ⟨r, .var x⟩]⟩ := by
  have hne : (Ty.fn p r == .fn a (.var x)) = false := by
    rw [← Bool.not_eq_true]
    intro heq
    have hx : x ∈ (Ty.fn p r).occurrences := by
      rw [Ty.occurrences_eq_of_beq heq]
      simp [Ty.fn, Ty.con]
    simp [Ty.fn, Ty.con, hp, hr] at hx
  have hhead : (Head.con Builtin.fn == Head.con Builtin.fn) = true :=
    (Head.representative_eq_iff _ _).mp rfl
  exact .single (.replace (Equation.move_eq_of_rule (.pair hne rfl rfl hhead rfl)))

theorem solve_fn (hp : x ∉ p.occurrences) (hr : x ∉ r.occurrences) (ha : x ∉ a.occurrences) :
    solve ⟨.empty, [⟨.fn p r, .fn a (.var x)⟩]⟩ =
      (solve ⟨.empty, [⟨p, a⟩]⟩).bind fun u => solve ⟨u, [⟨u.apply r, .var x⟩]⟩ := by
  have hstart : Problem.mk .empty [⟨p, a⟩, ⟨r, .var x⟩] =
      within ⟨.empty, [⟨p, a⟩]⟩ .empty [⟨r, .var x⟩] :=
    (within_start .empty [⟨p, a⟩] [⟨r, .var x⟩]).symm
  have hresolved : (within ⟨.empty, [⟨p, a⟩]⟩ .empty [⟨r, .var x⟩]).Resolved :=
    hstart ▸ resolved_empty _
  rw [solve_eq_of_reaches (reaches_fn hp hr), hstart, solve_within hresolved]
  rcases hsolve : solve ⟨.empty, [⟨p, a⟩]⟩ with err | u
  · rfl
  · -- The fresh variable is not bound yet.
    have hx : u.lookup x = none := by
      apply lookup_eq_none_of_solve_ok hsolve
      simp [Equation.occurrences, hp, ha]
    have hfresh : u.apply (.var x) = .var x := by
      simp [Substitution.apply_eq_instantiate, Substitution.image, hx]
    show solve (within ⟨u, []⟩ .empty [⟨r, .var x⟩]) = solve ⟨u, [⟨u.apply r, .var x⟩]⟩
    simp only [within, Substitution.compose_empty, List.nil_append, List.map_cons, List.map_nil,
      Equation.apply, hfresh]

theorem solve_result {u : Substitution} {q : Ty} (hu : u.lookup x = none) (hq : x ∉ q.occurrences)
    (happlied : ¬ q.AppliedVariable) :
    ∃ s, solve ⟨u, [⟨q, .var x⟩]⟩ = .ok s ∧ (s.image x).normalize = q.normalize := by
  have hne : (q == .var x) = false := by
    rw [← Bool.not_eq_true]
    intro heq
    rw [Ty.occurrences_eq_of_beq heq] at hq
    simp at hq
  rcases Ty.rigid_or_eq_var happlied with hrigid | ⟨y, rfl⟩
  · -- The sides are swapped, and the fresh variable is bound to the result.
    have hswap := Equation.move_eq_of_rule (.swap hne hrigid)
    have hbind : (Equation.mk (.var x) q).move = .bind x q := by
      apply Equation.move_eq_of_rule (.bind (by rwa [BEq.comm]) _)
      rwa [← Bool.not_eq_true, Ty.occurs_iff_mem_occurrences]
    have hreach : Reaches ⟨u, [⟨q, .var x⟩]⟩ ⟨u.bind x q, []⟩ :=
      .head (.replace hswap) (.single (.bind hbind))
    refine ⟨_, by rw [solve_eq_of_reaches hreach, solve_of_done rfl], ?_⟩
    simp [Substitution.image]
  · have hxy : x ≠ y := by simpa using hq
    have hbind : (Equation.mk (.var y) (.var x)).move = .bind y (.var x) := by
      apply Equation.move_eq_of_rule (.bind hne _)
      simpa [Ty.var] using hxy
    have hreach : Reaches ⟨u, [⟨.var y, .var x⟩]⟩ ⟨u.bind y (.var x), []⟩ := .single (.bind hbind)
    refine ⟨_, by rw [solve_eq_of_reaches hreach, solve_of_done rfl], ?_⟩
    have himage : (u.bind y (.var x)).image x = (Ty.var y).rename fun _ => x := by
      simp [Substitution.image, hxy, hu, Ty.rename]
    rw [himage, Ty.normalize_rename]
    simp [Ty.vars, List.eraseDups_cons]

theorem solve_result_of_appliedVariable {u : Substitution} {q : Ty} (happlied : q.AppliedVariable) :
    solve ⟨u, [⟨q, .var x⟩]⟩ = .error (.mismatch q (.var x)) := by
  obtain ⟨y, ts, hts, rfl⟩ := happlied
  have hmove : (Equation.mk (.app (.var y) ts) (.var x)).move =
      .fail (.mismatch (.app (.var y) ts) (.var x)) := by
    refine Equation.move_eq_of_rule (.appliedCount ?_ hts (by simpa using hts))
    rw [Ty.var, Ty.app_beq_app]
    simp [hts]
  apply solve_of_failed
  simp [step, hmove]

end Problem

/-! ## The type of the application -/

namespace Ty

open Application

variable {p r a : Ty}

/-- The result of a function type, with the numbers that it has once function and argument are
renamed apart. -/
def resultApart (p r : Ty) : Ty := r.rename ((fn p r).numberFrom 0)

/-- The equation between the parameter and the argument, renamed apart. -/
def parameterEquation (p r a : Ty) : Equation :=
  ⟨p.rename ((fn p r).numberFrom 0), a.renumber (fn p r).vars.length⟩

theorem equation_fn (p r a : Ty) :
    (apart (fn p r) a).equation =
      ⟨fn (parameterEquation p r a).left (resultApart p r),
        fn (parameterEquation p r a).right (.var (apart (fn p r) a).result)⟩ := by
  show Equation.mk ((fn p r).renumber 0) _ = _
  rw [renumber, rename_fn]
  rfl

section

variable (h : (fn p r).vars.length + a.vars.length < indexCount)
include h

theorem result_not_mem :
    (apart (fn p r) a).result ∉ (parameterEquation p r a).occurrences ∧
      (apart (fn p r) a).result ∉ (resultApart p r).occurrences := by
  have hresult : (apart (fn p r) a).result.toNat = (fn p r).vars.length + a.vars.length :=
    UInt32.toNat_ofNat_of_lt' h
  have hfunction : ∀ t : Ty, (∀ i ∈ t.vars, i ∈ (fn p r).vars) →
      (apart (fn p r) a).result ∉ (t.rename ((fn p r).numberFrom 0)).occurrences := by
    intro t ht hmem
    have := lt_of_mem_rename_numberFrom (by omega) ht hmem
    omega
  have hargument : (apart (fn p r) a).result ∉ (a.renumber (fn p r).vars.length).occurrences := by
    intro hmem
    have := lt_of_mem_rename_numberFrom (Nat.le_of_lt h) (fun _ hi => hi) hmem
    omega
  refine ⟨?_, hfunction r fun i hi => mem_vars_fn.mpr (.inr hi)⟩
  rw [parameterEquation, Equation.occurrences, List.mem_append, not_or]
  exact ⟨hfunction p fun i hi => mem_vars_fn.mpr (.inl hi), hargument⟩

theorem solve_equation_fn :
    Problem.solve ⟨.empty, [(apart (fn p r) a).equation]⟩ =
      (Problem.solve ⟨.empty, [parameterEquation p r a]⟩).bind fun u =>
        Problem.solve ⟨u, [⟨u.apply (resultApart p r), .var (apart (fn p r) a).result⟩]⟩ := by
  obtain ⟨hparameter, hresult⟩ := result_not_mem h
  rw [Equation.occurrences, List.mem_append, not_or] at hparameter
  rw [equation_fn, Problem.solve_fn hparameter.1 hresult hparameter.2]

theorem resultType_fn_of_error {err : TypeError}
    (herr : Problem.solve ⟨.empty, [parameterEquation p r a]⟩ = .error err) :
    (fn p r).resultType a = .error (.type err) := by
  rw [resultType_eq_outcome h, solve_equation_fn h, herr]
  rfl

theorem resultType_fn_of_ok {u : Substitution}
    (hu : Problem.solve ⟨.empty, [parameterEquation p r a]⟩ = .ok u)
    (happlied : ¬ (u.apply (resultApart p r)).AppliedVariable) :
    (fn p r).resultType a = .ok (u.apply (resultApart p r)).normalize := by
  obtain ⟨hparameter, hresult⟩ := result_not_mem h
  have hfresh : (apart (fn p r) a).result ∉
      [parameterEquation p r a].flatMap Equation.occurrences := by
    simpa using hparameter
  obtain ⟨s, hs, hnormal⟩ := Problem.solve_result (Problem.lookup_eq_none_of_solve_ok hu hfresh)
    (Problem.not_mem_apply_of_solve_ok hu hfresh hresult) happlied
  rw [resultType_eq_ok_iff h]
  refine ⟨s, ?_, hnormal⟩
  rw [solve_equation_fn h, hu]
  exact hs

theorem resultType_fn_of_appliedVariable {u : Substitution}
    (hu : Problem.solve ⟨.empty, [parameterEquation p r a]⟩ = .ok u)
    (happlied : (u.apply (resultApart p r)).AppliedVariable) :
    (fn p r).resultType a =
      .error (.type (.mismatch (u.apply (resultApart p r)) (.var (apart (fn p r) a).result))) := by
  have hfail :=
    Problem.solve_result_of_appliedVariable (u := u) (x := (apart (fn p r) a).result) happlied
  rw [resultType_eq_outcome h, solve_equation_fn h, hu]
  show (apart (fn p r) a).outcome (Problem.solve _) = _
  rw [hfail]
  rfl

end

/-! ## The parameter itself as the argument -/

theorem exists_solve_parameter (h : (fn p r).vars.length + p.vars.length < indexCount) :
    ∃ (u : Substitution) (m : Index → Index),
      Problem.solve ⟨.empty, [parameterEquation p r p]⟩ = .ok u ∧
        u.apply (resultApart p r) = r.rename m ∧
      ∀ i ∈ r.vars, ∀ j ∈ r.vars, m i = m j → i = j := by
  have hfirst : 0 + (fn p r).vars.length ≤ indexCount := by omega
  have hp : ∀ i ∈ p.vars, i ∈ (fn p r).vars := fun i hi => mem_vars_fn.mpr (.inl hi)
  have hr : ∀ i ∈ r.vars, i ∈ (fn p r).vars := fun i hi => mem_vars_fn.mpr (.inr hi)
  -- The two blocks of numbers do not meet.
  have hblocks : ∀ i ∈ (fn p r).vars, ∀ j ∈ p.vars,
      (fn p r).numberFrom 0 i ≠ p.numberFrom (fn p r).vars.length j := by
    intro i hi j hj heq
    have hleft := numberFrom_bounds hfirst hi
    have hright := numberFrom_bounds (Nat.le_of_lt h) hj
    rw [heq] at hleft
    omega
  have hapart : Apart p.vars ((fn p r).numberFrom 0) (p.numberFrom (fn p r).vars.length) :=
    ⟨fun i hi j hj => numberFrom_injOn hfirst i (hp i hi) j (hp j hj),
      fun i hi j hj heq => absurd heq (hblocks i (hp i hi) j hj)⟩
  obtain ⟨u, ρ, hu, himage, hmoved, hkept⟩ := Problem.exists_solve_copies hapart
  have hother : ∀ i ∈ (fn p r).vars, i ∉ p.vars →
      ρ ((fn p r).numberFrom 0 i) = (fn p r).numberFrom 0 i := by
    intro i hi hip
    apply hkept
    intro j hj heq
    obtain rfl := numberFrom_injOn hfirst i hi j (hp j hj) heq
    exact hip hj
  refine ⟨u, fun i => ρ ((fn p r).numberFrom 0 i), hu, ?_, fun i hi j hj heq => ?_⟩
  · have hrename : u.image = fun j => .var (ρ j) := funext himage
    rw [Substitution.apply_eq_instantiate, hrename, resultApart, instantiate_rename]
    rfl
  · dsimp only at heq
    by_cases hip : i ∈ p.vars <;> by_cases hjp : j ∈ p.vars
    · rw [hmoved i hip, hmoved j hjp] at heq
      exact numberFrom_injOn (Nat.le_of_lt h) i hip j hjp heq
    · rw [hmoved i hip, hother j (hr j hj) hjp] at heq
      exact absurd heq.symm (hblocks j (hr j hj) i hip)
    · rw [hother i (hr i hi) hip, hmoved j hjp] at heq
      exact absurd heq (hblocks i (hr i hi) j hjp)
    · rw [hother i (hr i hi) hip, hother j (hr j hj) hjp] at heq
      exact numberFrom_injOn hfirst i (hr i hi) j (hr j hj) heq

/-- A function applied to its own parameter gives its result in normal form. Only a variable with
arguments is no possible result. The mismatch is then between the result and the variable that
should take it over. -/
theorem resultType_own_parameter (p r : Ty)
    (h : (fn p r).vars.length + p.vars.length < indexCount) :
    (¬ r.AppliedVariable → (fn p r).resultType p = .ok r.normalize) ∧
    (r.AppliedVariable → ∃ l x, (fn p r).resultType p = .error (.type (.mismatch l (.var x))) ∧
      l.normalize = r.normalize) := by
  obtain ⟨u, m, hu, hresult, hm⟩ := exists_solve_parameter h
  constructor
  · intro happlied
    rw [resultType_fn_of_ok h hu, hresult, normalize_rename hm]
    rwa [hresult, appliedVariable_rename_iff]
  · intro happlied
    refine ⟨_, _, resultType_fn_of_appliedVariable h hu ?_, ?_⟩
    · rwa [hresult, appliedVariable_rename_iff]
    · rw [hresult, normalize_rename hm]

theorem resultType_own_parameter_applied :
    let p : Ty := .app (.var 3) [.var 7, .app (.var 7) [.app (.skolem 1) []]]
    let r : Ty := .fn (.var 7) (.app (.var 3) [.var 9])
    let r' : Ty := .app (.var 7) [.var 9]
    (fn p r).resultType p = .ok (.fn (.var 0) (.app (.var 1) [.var 2])) ∧
      ∃ l x, (fn p r').resultType p = .error (.type (.mismatch l (.var x))) ∧
        l.normalize = .app (.var 0) [.var 1] := by
  intro p r r'
  have hr : ¬ r.AppliedVariable := not_appliedVariable_of_rigid rfl
  have hr' : r'.AppliedVariable := ⟨7, [.var 9], by simp, rfl⟩
  have hnormal : r.normalize = .fn (.var 0) (.app (.var 1) [.var 2]) := by rfl
  have hnormal' : r'.normalize = .app (.var 0) [.var 1] := by rfl
  rw [← hnormal, ← hnormal']
  have hcount : (fn p r).vars.length + p.vars.length < indexCount := by
    simp [p, r, vars, fn, con, List.eraseDups_cons, indexCount]
  have hcount' : (fn p r').vars.length + p.vars.length < indexCount := by
    simp [p, r', vars, fn, con, List.eraseDups_cons, indexCount]
  exact ⟨(resultType_own_parameter p r hcount).1 hr, (resultType_own_parameter p r' hcount').2 hr'⟩

/-! ## A ground argument -/

theorem vars_of_isGround (ha : a.isGround = true) : a.vars = [] := by
  rw [vars, (isGround_iff a).mp ha]
  rfl

theorem exists_perm_solve_parameter (ha : a.isGround = true)
    (h : (fn p r).vars.length < indexCount) :
    ∃ π : Equiv.Perm Index, resultApart p r = r.rename π ∧
      Problem.solve ⟨.empty, [parameterEquation p r a]⟩ =
      (Relabelling.ofPerms π (Equiv.refl Index)).outcome (Problem.solve ⟨.empty, [⟨p, a⟩]⟩) := by
  obtain ⟨π, hπ⟩ := exists_perm_agree (numberFrom_injOn (t := fn p r) (n := 0) (by omega))
  have hequation : parameterEquation p r a =
      ⟨p.rename ((fn p r).numberFrom 0), a.rename ((fn p r).numberFrom 0)⟩ := by
    simp only [parameterEquation, renumber, rename, instantiate_of_isGround ha]
  refine ⟨π, rename_congr fun i hi => (hπ i (mem_vars_fn.mpr (.inr hi))).symm, ?_⟩
  rw [hequation]
  apply Problem.solve_rename
  intro i hi
  rw [Equation.occurrences, (isGround_iff a).mp ha, List.append_nil] at hi
  exact hπ i (mem_vars_fn.mpr (.inl (mem_vars.mpr hi)))

theorem not_appliedVariable_apply {s : Substitution}
    (hs : ∀ x u, s.lookup x = some u → u.isGround = true) (hr : ¬ r.AppliedVariable) :
    ¬ (s.apply r).AppliedVariable := by
  rw [Substitution.apply_eq_instantiate]
  rcases rigid_or_eq_var hr with hrigid | ⟨x, rfl⟩
  · exact not_appliedVariable_instantiate hrigid _
  · rw [instantiate_bare_var, Substitution.image]
    rcases hx : s.lookup x with _ | u
    · exact hr
    · exact not_appliedVariable_of_isGround (hs x u hx)

section

variable (ha : a.isGround = true) (h : (fn p r).vars.length < indexCount)
include ha h

theorem resultType_fn_of_matched {s : Substitution} (hr : ¬ r.AppliedVariable)
    (hs : Problem.solve ⟨.empty, [⟨a, p⟩]⟩ = .ok s) :
    (fn p r).resultType a = .ok (s.apply r).normalize := by
  have hcount : (fn p r).vars.length + a.vars.length < indexCount := by
    simpa [vars_of_isGround ha] using h
  obtain ⟨π, hresult, hsolve⟩ := exists_perm_solve_parameter ha h
  rw [(Problem.solve_turn_iff ha s).mpr hs] at hsolve
  have happly : (s.relabel (.ofPerms π (Equiv.refl Index))).apply (resultApart p r) =
      (s.apply r).rename π := by
    rw [hresult, ← relabel_ofPerms, ← relabel_ofPerms, Substitution.relabel_apply]
  have hmatching :=
    (Problem.reaches_of_solve_ok hs).matching (Problem.resolved_empty _) (Problem.matching_start ha)
  rw [resultType_fn_of_ok hcount hsolve, happly,
    normalize_rename fun i _ j _ hij => π.injective hij]
  rw [happly, appliedVariable_rename_iff]
  exact not_appliedVariable_apply hmatching.bound hr

theorem resultType_fn_of_unmatched {err : TypeError}
    (herr : Problem.solve ⟨.empty, [⟨a, p⟩]⟩ = .error err) :
    ∃ err', (fn p r).resultType a = .error (.type err') := by
  have hcount : (fn p r).vars.length + a.vars.length < indexCount := by
    simpa [vars_of_isGround ha] using h
  obtain ⟨π, -, hsolve⟩ := exists_perm_solve_parameter ha h
  rcases hturned : Problem.solve ⟨.empty, [⟨p, a⟩]⟩ with err' | s
  · rw [hturned] at hsolve
    exact ⟨_, resultType_fn_of_error hcount hsolve⟩
  · rw [(Problem.solve_turn_iff ha s).mp hturned] at herr
    simp at herr

end

/-- A function accepts a ground argument exactly if the argument is an instance of its parameter.
What unifying the two gives for the variables makes the result. -/
theorem resultType_ground_argument (p r a : Ty) (ha : a.isGround = true) (hr : ¬ r.AppliedVariable)
    (h : (fn p r).vars.length < indexCount) :
    ((∃ t, (fn p r).resultType a = .ok t) ↔ a.checkInstance p = .ok ()) ∧
    ∀ s, a.unify p = .ok s → (fn p r).resultType a = .ok (s.apply r).normalize := by
  have hground : a.skolemize = a := instantiate_of_isGround ha _
  refine ⟨?_, fun s hs => resultType_fn_of_matched ha h hr hs⟩
  rw [checkInstance_ok_iff, hground]
  constructor
  · rintro ⟨t, ht⟩
    rcases hsolve : Problem.solve ⟨.empty, [⟨a, p⟩]⟩ with err | s
    · obtain ⟨err', herr⟩ := resultType_fn_of_unmatched ha h hsolve
      rw [ht] at herr
      simp at herr
    · exact ⟨s, rfl⟩
  · rintro ⟨s, hs⟩
    exact ⟨_, resultType_fn_of_matched ha h hr hs⟩

theorem resultType_ground_argument_partial :
    let u : Ty := .app (.skolem 5) []
    let v : Ty := .app (.skolem 7) []
    let p : Ty := .app (.var 4) [.var 6, .app (.var 6) [v]]
    let r : Ty := .list (.app (.var 6) [.var 8])
    let a : Ty := .app (.skolem 1) [.app (.skolem 2) [u], .app (.skolem 2) [u, v]]
    a.isGround = true ∧ a.checkInstance p = .ok () ∧
      (fn p r).resultType a = .ok (.list (.app (.skolem 2) [u, .var 0])) := by
  -- `6` has no argument at its first place and one at the second.
  intro u v p r a
  have ha : a.isGround = true := by rfl
  have hr : ¬ r.AppliedVariable := not_appliedVariable_of_rigid rfl
  have hcount : (fn p r).vars.length < indexCount := by
    simp [p, r, v, vars, fn, list, con, List.eraseDups_cons, indexCount]
  have hunify : a.unify p =
      .ok ((Substitution.empty.bind 4 (.app (.skolem 1) [])).bind 6 (.app (.skolem 2) [u])) := by
    show Problem.solve ⟨.empty, [⟨a, p⟩]⟩ = _
    rw [Problem.solve_of_next rfl, Problem.solve_of_next rfl, Problem.solve_of_next rfl,
      Problem.solve_of_next rfl, Problem.solve_of_next rfl]
    exact Problem.solve_of_done rfl
  obtain ⟨haccepts, hresult⟩ := resultType_ground_argument p r a ha hr hcount
  exact ⟨ha, haccepts.mp ⟨_, hresult _ hunify⟩, hresult _ hunify⟩

end Ty

end Prenex
