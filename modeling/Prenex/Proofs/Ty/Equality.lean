import Prenex.Proofs.Ty.Relabel

/-!
# Equality up to fingerprints

`==` does not see the names of constructors. Each fingerprint that is in use gets one constructor to
represent it, and `==` on types is equality once every constructor is represented. So it is an
equivalence that instantiation respects.
-/

namespace Prenex

/-! ## Representatives -/

namespace Constructor

theorem beq_iff (c d : Constructor) : (c == d) = true ↔ c.fingerprint = d.fingerprint := by
  show (c.fingerprint == d.fingerprint) = true ↔ _
  exact beq_iff_eq

theorem beq_eq_false {c d : Constructor} (h : c.fingerprint ≠ d.fingerprint) :
    (c == d) = false := by
  rwa [← Bool.not_eq_true, beq_iff]

/-- The same for all constructors with one fingerprint. -/
noncomputable def representative (c : Constructor) : Constructor :=
  Classical.choose (⟨c, rfl⟩ : ∃ d : Constructor, d.fingerprint = c.fingerprint)

theorem fingerprint_representative (c : Constructor) :
    c.representative.fingerprint = c.fingerprint :=
  Classical.choose_spec (⟨c, rfl⟩ : ∃ d : Constructor, d.fingerprint = c.fingerprint)

theorem representative_eq_iff (c d : Constructor) :
    c.representative = d.representative ↔ (c == d) = true := by
  rw [beq_iff]
  constructor
  · intro h
    rw [← fingerprint_representative c, h, fingerprint_representative d]
  · intro h
    unfold representative
    simp only [h]

end Constructor

namespace Head

noncomputable def representative : Head → Head
  | .con c => .con c.representative
  | h => h

@[simp] theorem var?_representative (h : Head) : h.representative.var? = h.var? := by
  cases h <;> rfl

theorem representative_eq_iff (h k : Head) :
    h.representative = k.representative ↔ (h == k) = true := by
  show _ ↔ same h k = true
  cases h <;> cases k <;> simp [representative, same, Constructor.representative_eq_iff]

theorem beq_representative (h : Head) : (h == h.representative) = true := by
  show same h h.representative = true
  cases h with
  | con c => exact (Constructor.beq_iff _ _).mpr c.fingerprint_representative.symm
  | var i => simp [representative, same]
  | skolem i => simp [representative, same]

end Head

namespace Ty

noncomputable def represented (t : Ty) : Ty := t.relabel Head.representative

@[simp] theorem represented_app (h : Head) (ts : List Ty) :
    (Ty.app h ts).represented = .app h.representative (ts.map represented) := by
  simp only [represented, relabel_app]
  rfl

@[simp] theorem represented_applyTo (t : Ty) (us : List Ty) :
    (t.applyTo us).represented = t.represented.applyTo (us.map represented) := by
  simp only [represented, relabel_applyTo]
  rfl

/-! ## Equality of types -/

theorem beq_iff (t u : Ty) : (t == u) = true ↔ t.represented = u.represented := by
  induction t generalizing u with
  | app h ts ih =>
    obtain ⟨k, us⟩ := u
    have hargs : (ts == us) = true ↔ ts.map represented = us.map represented := by
      induction ts generalizing us with
      | nil => cases us <;> simp
      | cons t ts ihs =>
        cases us with
        | nil => simp
        | cons u us =>
          have ht := ih t (by simp) u
          have hts := ihs (fun v hv => ih v (by simp [hv])) us
          simp [List.cons_beq_cons, ht, hts]
    rw [app_beq_app, Bool.and_eq_true, hargs, ← Head.representative_eq_iff, represented_app,
      represented_app, Ty.app.injEq]

theorem list_beq_iff (ts us : List Ty) :
    (ts == us) = true ↔ ts.map represented = us.map represented := by
  have h := beq_iff (.app (.var 0) ts) (.app (.var 0) us)
  rwa [app_beq_app, Bool.and_eq_true, represented_app, represented_app, Ty.app.injEq,
    ← Head.representative_eq_iff, and_iff_right rfl, and_iff_right rfl] at h

instance : EquivBEq Ty where
  rfl := (beq_iff _ _).mpr rfl
  symm h := (beq_iff _ _).mpr ((beq_iff _ _).mp h).symm
  trans h k := (beq_iff _ _).mpr (((beq_iff _ _).mp h).trans ((beq_iff _ _).mp k))

theorem size_eq_of_beq {t u : Ty} (h : (t == u) = true) : t.size = u.size := by
  rw [beq_iff] at h
  simpa [represented] using congrArg size h

theorem occurrences_eq_of_beq {t u : Ty} (h : (t == u) = true) : t.occurrences = u.occurrences := by
  rw [beq_iff] at h
  simpa [represented, occurrences_relabel] using congrArg occurrences h

theorem length_args_eq_of_beq {t u : Ty} (h : (t == u) = true) : t.args.length = u.args.length := by
  rw [beq_iff] at h
  simpa [represented] using congrArg (·.args.length) h

theorem isGround_eq_of_beq {t u : Ty} (h : (t == u) = true) : t.isGround = u.isGround := by
  rw [Bool.eq_iff_iff, isGround_iff, isGround_iff, occurrences_eq_of_beq h]

theorem applyTo_beq_applyTo_iff {t u : Ty} {ts us : List Ty} (hlen : ts.length = us.length) :
    (t.applyTo ts == u.applyTo us) = true ↔ (t == u) = true ∧ (ts == us) = true := by
  simp only [beq_iff, list_beq_iff, represented_applyTo]
  obtain ⟨h, as⟩ := t
  obtain ⟨k, bs⟩ := u
  have hlen' : (ts.map represented).length = (us.map represented).length := by simpa using hlen
  simp only [represented_app, applyTo_app, Ty.app.injEq]
  constructor
  · rintro ⟨hhead, hargs⟩
    obtain ⟨has, hts⟩ := List.append_inj' hargs hlen'
    exact ⟨⟨hhead, has⟩, hts⟩
  · rintro ⟨⟨hhead, has⟩, hts⟩
    exact ⟨hhead, by rw [has, hts]⟩

/-! ## Equality, relabelling and instantiation -/

theorem relabel_beq {φ : Head → Head} (hφ : ∀ h k, (h == k) = true → (φ h == φ k) = true) {t u : Ty}
    (htu : (t == u) = true) : (t.relabel φ == u.relabel φ) = true := by
  have hrep : ∀ t : Ty, (t.relabel φ).represented = (t.represented.relabel φ).represented := by
    intro t
    simp only [represented, relabel_relabel]
    congr 1
    funext h
    exact (Head.representative_eq_iff _ _).mpr (hφ _ _ h.beq_representative)
  rw [beq_iff] at htu
  rw [beq_iff, hrep, htu, ← hrep]

theorem represented_instantiate (f : Index → Ty) (t : Ty) :
    (t.instantiate f).represented = t.represented.instantiate fun i => (f i).represented := by
  apply relabel_instantiate
  rintro (c | i | i) _ <;> simp [Head.representative, represented]

theorem occurrences_represented (t : Ty) : t.represented.occurrences = t.occurrences :=
  occurrences_relabel Head.var?_representative t

theorem instantiate_beq {f g : Index → Ty} {t u : Ty} (htu : (t == u) = true)
    (hfg : ∀ i ∈ t.occurrences, (f i == g i) = true) :
    (t.instantiate f == u.instantiate g) = true := by
  rw [beq_iff] at htu
  rw [beq_iff, represented_instantiate, represented_instantiate, ← htu]
  apply instantiate_congr
  intro i hi
  rw [occurrences_represented] at hi
  exact (beq_iff _ _).mp (hfg i hi)

end Ty

end Prenex
