import Prenex.Proofs.Supply
import Prenex.Proofs.Ty.Equality

/-!
# Types up to the numbers of their variables

Two types that are instances of each other differ only in the numbers of their variables. Going
there and back leaves the first type as it was, so each variable comes back as itself, and on the
way it can only have been another variable. The normal form is the same for exactly those types. It
is what a new supply gives, and its own normal form.
-/

namespace Prenex.Ty

/-! ## Renaming and equality -/

theorem vars_eq_of_beq {t u : Ty} (h : (t == u) = true) : t.vars = u.vars := by
  unfold vars
  rw [occurrences_eq_of_beq h]

theorem rename_beq {t u : Ty} (h : (t == u) = true) (m : Index → Index) :
    (t.rename m == u.rename m) = true :=
  instantiate_beq h fun _ _ => BEq.rfl

theorem normalize_beq {t u : Ty} (h : (t == u) = true) : (t.normalize == u.normalize) = true := by
  unfold normalize
  rw [vars_eq_of_beq h]
  exact rename_beq h _

theorem rename_rename (m k : Index → Index) (t : Ty) :
    (t.rename m).rename k = t.rename fun i => k (m i) :=
  instantiate_rename _ m t

/-- `b` is `a` with other numbers, where different variables have different ones. -/
def Renumbered (a b : Ty) : Prop :=
  ∃ m : Index → Index, (∀ i ∈ a.vars, ∀ j ∈ a.vars, m i = m j → i = j) ∧ (a.rename m == b) = true

/-! ## There and back -/

theorem image_beq_var {f : Index → Ty} {t : Ty} {i : Index} (h : (t.instantiate f == t) = true)
    (hi : i ∈ t.occurrences) : (f i == .var i) = true := by
  induction t with
  | app hd ts ih =>
    have hsplit : Ty.app hd ts = (Ty.app hd []).applyTo ts := rfl
    rw [instantiate_app, hsplit, applyTo_beq_applyTo_iff (by simp)] at h
    obtain ⟨hhead, hargs⟩ := h
    rcases mem_occurrences_app.mp hi with rfl | ⟨t, ht, hi⟩
    · simpa [var] using hhead
    · rw [list_beq_iff, List.map_map, List.map_inj_left] at hargs
      exact ih t ht ((beq_iff _ _).mpr (hargs t ht)) hi

theorem eq_var_of_instantiate_beq_var {f : Index → Ty} {t : Ty} {i : Index}
    (h : (t.instantiate f == .var i) = true) :
    ∃ j, t = .var j := by
  obtain ⟨hd, ts⟩ := t
  -- Arguments and heads that are no variable stay where they are.
  have hts : ts = [] := by
    have hlen := length_args_eq_of_beq h
    rw [instantiate_app] at hlen
    simp at hlen
    exact hlen.2
  rcases hhd : hd.var? with _ | j
  · have hocc := occurrences_eq_of_beq h
    rw [instantiate_of_var?_eq_none hhd, hts] at hocc
    simp [hhd] at hocc
  · exact ⟨j, by rw [hts, Head.var?_eq_some_iff.mp hhd]; rfl⟩

theorem renumbered_of_instantiate_beq {a b : Ty} {f g : Index → Ty}
    (hba : (a.instantiate g == b) = true) (hab : (b.instantiate f == a) = true) :
    a.Renumbered b := by
  have hback : ∀ i ∈ a.occurrences, ((g i).instantiate f == .var i) = true := by
    intro i hi
    have hfix : (a.instantiate (fun i => (g i).instantiate f) == a) = true := by
      rw [← instantiate_instantiate]
      exact BEq.trans (instantiate_beq hba fun _ _ => BEq.rfl) hab
    exact image_beq_var hfix hi
  let m : Index → Index := fun i => (g i).head.var?.getD i
  have hm : ∀ i ∈ a.occurrences, g i = .var (m i) := by
    intro i hi
    obtain ⟨j, hj⟩ := eq_var_of_instantiate_beq_var (hback i hi)
    simp [m, hj]
  refine ⟨m, fun i hi j hj hij => ?_, ?_⟩
  · have hi := mem_vars.mp hi
    have hj := mem_vars.mp hj
    have hgij : g i = g j := by
      rw [hm i hi, hij, ← hm j hj]
    have hvar := BEq.trans (BEq.symm (hback i hi)) (hgij ▸ hback j hj)
    simpa using occurrences_eq_of_beq hvar
  · have hrename : a.rename m = a.instantiate g := by
      apply instantiate_congr
      intro i hi
      exact (hm i hi).symm
    rwa [hrename]

/-! ## Normal forms -/

theorem normalize_rename {m : Index → Index} {t : Ty}
    (hm : ∀ i ∈ t.vars, ∀ j ∈ t.vars, m i = m j → i = j) :
    (t.rename m).normalize = t.normalize := by
  unfold normalize
  dsimp only
  rw [rename_rename, vars_rename hm]
  apply rename_congr
  intro i hi
  rw [idxOf_map hm t.nodup_vars hi]

theorem rename_beq_of_normalize_beq {a b : Ty} (h : (a.normalize == b.normalize) = true) :
    (a.rename (fun i => b.variableAt 0 (a.numberFrom 0 i)) == b) = true := by
  have hto : a.rename (fun i => b.variableAt 0 (a.numberFrom 0 i)) =
      a.normalize.rename (b.variableAt 0) := by
    rw [normalize_eq_renumber, renumber, rename_rename]
  have hfrom : b.normalize.rename (b.variableAt 0) = b := by
    have hback :=
      instantiate_renumber (t := b) (n := 0) (f := .var) (g := fun j => .var (b.variableAt 0 j))
        (by simpa using b.length_vars_le) fun _ _ _ => rfl
    rwa [instantiate_var, ← normalize_eq_renumber] at hback
  have hrename := rename_beq h (b.variableAt 0)
  rwa [← hto, hfrom] at hrename

theorem normalize_beq_iff (a b : Ty) : (a.normalize == b.normalize) = true ↔ a.Renumbered b := by
  constructor
  · intro h
    exact renumbered_of_instantiate_beq (rename_beq_of_normalize_beq h)
      (rename_beq_of_normalize_beq (BEq.symm h))
  · rintro ⟨m, hm, hab⟩
    rw [← normalize_rename hm]
    exact normalize_beq hab

theorem normalize_normalize (t : Ty) : t.normalize.normalize = t.normalize := by
  have hinj := numberFrom_injOn (t := t) (n := 0) (by simpa using t.length_vars_le)
  calc
    t.normalize.normalize = (t.rename (t.numberFrom 0)).normalize := by
      rw [normalize_eq_renumber t, renumber]
    _ = t.normalize := normalize_rename hinj

theorem freshen_new (t : Ty) : (Supply.new.freshen t).1 = some t.normalize := by
  have hfits : Supply.new.next + t.vars.length ≤ indexCount := by
    have hnext : Supply.new.next = 0 := rfl
    simpa [hnext] using t.length_vars_le
  rw [Supply.freshen_eq hfits, normalize_eq_renumber]
  rfl

/-- The normal form is what a new supply gives. Types have the same one exactly if they are the same
up to the numbers of their variables. Its own numbers start at 0 and have no gap, and it is its own
normal form. -/
theorem normalize_canonical (a b : Ty) :
    (Supply.new.freshen a).1 = some a.normalize ∧
    ((a.normalize == b.normalize) = true ↔ a.Renumbered b) ∧
    a.normalize.vars.map UInt32.toNat = List.range a.vars.length ∧
    a.normalize.normalize = a.normalize := by
  refine ⟨freshen_new a, normalize_beq_iff a b, ?_, normalize_normalize a⟩
  rw [vars_normalize, List.range_eq_range',
    map_toNat_ofNat_range' (by simpa using a.length_vars_le)]

end Prenex.Ty
