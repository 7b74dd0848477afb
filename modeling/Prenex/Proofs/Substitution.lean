import Prenex.Proofs.Ty.Renumber
import Prenex.Substitution

/-!
# Substitutions as assignments

A substitution acts as the assignment of its images. Composing two of them is acting twice, so
composition is a monoid that acts on types. Binding one more variable is acting twice too. A type
has finitely many variables, so on one type a substitution does what any assignment does.
-/

namespace Prenex

namespace Substitution

/-! ## The list of bindings -/

theorem lookup_of_mem (s : Substitution) {b : Binding} (hb : b ∈ s.bindings) :
    s.lookup b.1 = some b.2 := by
  obtain ⟨bs, hascending⟩ := s
  unfold lookup
  dsimp only at hb ⊢
  induction bs with
  | nil => simp at hb
  | cons c rest ih =>
    obtain ⟨hc, hrest⟩ := List.pairwise_cons.mp hascending
    rw [lookup_cons]
    rcases List.mem_cons.mp hb with rfl | hb
    · rw [if_pos rfl]
    · rw [if_neg (UInt32.ne_of_lt (hc b hb)).symm]
      exact ih hrest hb

theorem insertBinding_perm {x : Index} {bs : List Binding} (hx : ∀ b ∈ bs, x ≠ b.1) (t : Ty) :
    (insertBinding x t bs).Perm ((x, t) :: bs) := by
  induction bs with
  | nil => exact .refl _
  | cons c rest ih =>
    obtain ⟨hc, hrest⟩ := List.forall_mem_cons.mp hx
    simp only [insertBinding, if_neg hc]
    split
    · exact .refl _
    · exact ((ih hrest).cons c).trans (.swap _ _ _)

/-! ## One after the other -/

theorem apply_empty (t : Ty) : empty.apply t = t := rfl

theorem image_compose (a b : Substitution) (x : Index) :
    (a.compose b).image x = a.apply (b.image x) := by
  rcases hx : b.lookup x with _ | t
  · simp [image, hx, apply_eq_instantiate]
  · simp [image, hx]

theorem apply_compose (a b : Substitution) (t : Ty) :
    (a.compose b).apply t = a.apply (b.apply t) := by
  have himage : (a.compose b).image = fun x => (b.image x).instantiate a.image := by
    funext x
    rw [image_compose, apply_eq_instantiate]
  rw [apply_eq_instantiate, himage, ← Ty.instantiate_instantiate, apply_eq_instantiate,
    apply_eq_instantiate]

theorem empty_compose (s : Substitution) : empty.compose s = s := by
  ext x : 1
  rcases hx : s.lookup x with _ | t
  · simp [hx]
  · simp [hx, apply_empty]

theorem compose_empty (s : Substitution) : s.compose empty = s := by
  ext x : 1
  simp

theorem compose_assoc (a b c : Substitution) :
    (a.compose b).compose c = a.compose (b.compose c) := by
  ext x : 1
  rcases hx : c.lookup x with _ | t
  · simp [hx]
  · -- What `c` binds goes through `b` and then through `a`, on both sides.
    simp [hx, apply_compose]

/-- Substitutions are a monoid under composition, and it acts on types. They may bind a variable to
a type that contains it, or bind the same variables. -/
theorem compose_monoid_action (a b c : Substitution) (t : Ty) :
    (a.compose b).apply t = a.apply (b.apply t) ∧ empty.apply t = t ∧
    (a.compose b).compose c = a.compose (b.compose c) ∧ empty.compose a = a ∧ a.compose empty = a :=
  ⟨apply_compose a b t, apply_empty t, compose_assoc a b c, empty_compose a, compose_empty a⟩

/-- The outer substitution is put to work inside the inner one, and what the inner one binds is
kept. -/
example :
    ((single 0 (.app (.var 1) [.var 0])).compose (single 0 (.app (.var 0) [.var 2]))).bindings =
    [(0, .app (.var 1) [.var 0, .var 2])] := rfl

/-! ## One more binding -/

variable {s : Substitution} {x : Index}

theorem image_bind (hx : s.lookup x = none) (t : Ty) (y : Index) :
    (s.bind x t).image y = (s.image y).substitute x t := by
  by_cases hyx : y = x
  · subst hyx
    simp [image, hx, Ty.substitute_eq_instantiate]
  · rcases hy : s.lookup y with _ | u
    · simp [image, hyx, hy, Ty.substitute_eq_instantiate]
    · simp [image, hyx, hy]

theorem apply_bind (hx : s.lookup x = none) (t u : Ty) :
    (s.bind x t).apply u = (s.apply u).substitute x t := by
  have himage : (s.bind x t).image = fun y => (s.image y).substitute x t := by
    funext y
    exact image_bind hx t y
  rw [apply_eq_instantiate, himage, apply_eq_instantiate, Ty.substitute_eq_instantiate,
    Ty.instantiate_instantiate]
  simp only [Ty.substitute_eq_instantiate]

theorem bind_compose {u : Substitution} (hu : u.lookup x = none) (hs : s.lookup x = none) (t : Ty) :
    (u.bind x t).compose s = (u.compose s).bind x t := by
  ext y : 1
  by_cases hyx : y = x
  · subst hyx
    simp [hs]
  · rcases hy : s.lookup y with _ | v
    · simp [hy, hyx]
    · simp [hy, hyx, apply_bind hu]

theorem bind_eq_single_compose (hx : s.lookup x = none) (t : Ty) :
    s.bind x t = (single x t).compose s := by
  have hempty : single x t = empty.bind x t := rfl
  rw [hempty, bind_compose (lookup_empty x) hx, empty_compose]

/-- No bound variable stands in a bound type, so applying once is enough. -/
def Settled (s : Substitution) : Prop :=
  ∀ y z u, s.lookup y ≠ none → s.lookup z = some u → y ∉ u.occurrences

theorem eq_or_bound_of_bind {t : Ty} {y : Index} (hy : (s.bind x t).lookup y ≠ none) :
    y = x ∨ s.lookup y ≠ none := by
  by_cases hyx : y = x
  · exact .inl hyx
  · exact .inr (by simpa [hyx] using hy)

theorem Settled.bind {t : Ty} (hs : s.Settled) (hxt : x ∉ t.occurrences)
    (hbound : ∀ y, s.lookup y ≠ none → y ∉ t.occurrences) : (s.bind x t).Settled := by
  intro y z u hy hz hyu
  have hold := eq_or_bound_of_bind hy
  have hyt : y ∉ t.occurrences := by
    rcases hold with rfl | hold
    · exact hxt
    · exact hbound y hold
  rw [lookup_bind] at hz
  split at hz
  · cases hz
    exact hyt hyu
  · -- The substitution takes `x` away, so only an old variable could be left.
    obtain ⟨v, hv, rfl⟩ := Option.map_eq_some_iff.mp hz
    rcases Ty.mem_occurrences_substitute hyu with hyt' | ⟨hyv, hyx⟩
    · exact hyt hyt'
    · exact hs y z v (hold.resolve_left hyx) hv hyv

/-- A new variable, bound to a type in which neither it nor a bound variable stands, is a step
behind the substitution: rewriting the bindings in place, composing the maps, and acting twice on a
type are the same. -/
theorem bind_extends {t : Ty} (hs : s.Settled) (hx : s.lookup x = none) (hxt : x ∉ t.occurrences)
    (hbound : ∀ y, s.lookup y ≠ none → y ∉ t.occurrences) :
    s.bind x t = (single x t).compose s ∧ (s.bind x t).Settled ∧
    ∀ u, (s.bind x t).apply u = (s.apply u).substitute x t :=
  ⟨bind_eq_single_compose hx t, hs.bind hxt hbound, apply_bind hx t⟩

theorem bind_extends_head :
    let s := single 0 (.app (.var 1) [.var 2])
    let t : Ty := .app (.skolem 0) [.var 3]
    s.Settled ∧ s.lookup 1 = none ∧ 1 ∉ t.occurrences ∧
      (∀ y, s.lookup y ≠ none → y ∉ t.occurrences) ∧
      (s.bind 1 t).bindings = [(0, .app (.skolem 0) [.var 3, .var 2]), (1, t)] ∧
      s.bind 1 t = (single 1 t).compose s ∧ (s.bind 1 t).Settled ∧
      ∀ u, (s.bind 1 t).apply u = (s.apply u).substitute 1 t := by
  -- The new variable `1` is the head of an old type, where it has an argument.
  intro s t
  have hkey : ∀ y, s.lookup y ≠ none → y = 0 := by
    intro y hy
    by_contra hne
    exact hy (by simp [s, hne])
  have hsettled : s.Settled := by
    intro y z u hy hz
    obtain rfl := hkey y hy
    obtain rfl := hkey z (by simp [hz])
    cases hz
    decide
  have hbound : ∀ y, s.lookup y ≠ none → y ∉ t.occurrences := by
    intro y hy
    obtain rfl := hkey y hy
    decide
  have hnew : 1 ∉ t.occurrences := by decide
  exact ⟨hsettled, rfl, hnew, hbound, rfl, bind_extends hsettled rfl hnew hbound⟩

/-! ## From an assignment -/

/-- Binds each variable of a list to what `f` gives it. -/
def ofFun (f : Index → Ty) : List Index → Substitution
  | [] => .empty
  | x :: xs => (ofFun f xs).insert x (f x)

theorem image_ofFun (f : Index → Ty) {xs : List Index} {x : Index} (hx : x ∈ xs) :
    (ofFun f xs).image x = f x := by
  induction xs with
  | nil => simp at hx
  | cons y ys ih =>
    unfold image at ih ⊢
    rw [ofFun, lookup_insert]
    by_cases hxy : x = y
    · simp [hxy]
    · rw [if_neg hxy]
      exact ih ((List.mem_cons.mp hx).resolve_left hxy)

theorem apply_ofFun_vars (f : Index → Ty) (t : Ty) :
    (ofFun f t.vars).apply t = t.instantiate f := by
  rw [apply_eq_instantiate]
  apply Ty.instantiate_congr
  intro x hx
  exact image_ofFun f (Ty.mem_vars.mpr hx)

end Substitution

theorem Ty.exists_apply_normalize (f : Index → Ty) (t : Ty) :
    ∃ θ : Substitution, θ.apply t.normalize = t.instantiate f := by
  refine ⟨.ofFun (fun j => f (t.variableAt 0 j)) t.normalize.vars, ?_⟩
  rw [Substitution.apply_ofFun_vars, normalize_eq_renumber]
  exact instantiate_renumber (by simpa using t.length_vars_le) fun _ _ _ => rfl

end Prenex
