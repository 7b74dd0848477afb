import Prenex.Ty.Instantiate
/-!
# Substitutions

A finite map from variables to types, held in ascending order of the variables, so that equal maps
are equal values.
-/

namespace Prenex

abbrev Binding := Index × Ty

/-- Each variable is less than those behind it. -/
abbrev Ascending (bs : List Binding) : Prop := bs.Pairwise fun a b => a.1 < b.1

structure Substitution where
  bindings : List Binding
  ascending : Ascending bindings

namespace Substitution

/-! ## Bindings in order -/

/-- Puts a binding in its place. It takes the place of an older one for the same variable. -/
def insertBinding (x : Index) (t : Ty) : List Binding → List Binding
  | [] => [(x, t)]
  | (y, u) :: rest =>
    if x < y then (x, t) :: (y, u) :: rest
    else if x = y then (x, t) :: rest
    else (y, u) :: insertBinding x t rest

theorem mem_insertBinding {x : Index} {t : Ty} {bs : List Binding} {b : Binding}
    (h : b ∈ insertBinding x t bs) : b = (x, t) ∨ b ∈ bs := by
  induction bs with
  | nil => simpa [insertBinding] using h
  | cons c rest ih =>
    obtain ⟨y, u⟩ := c
    simp only [insertBinding] at h
    split at h
    · simpa using h
    · split at h
      · rcases List.mem_cons.mp h with h | h
        · exact .inl h
        · exact .inr (List.mem_cons_of_mem _ h)
      · rcases List.mem_cons.mp h with h | h
        · exact .inr (h ▸ List.mem_cons_self)
        · exact (ih h).imp_right (List.mem_cons_of_mem _)

theorem ascending_insertBinding (x : Index) (t : Ty) {bs : List Binding} (h : Ascending bs) :
    Ascending (insertBinding x t bs) := by
  induction bs with
  | nil => simp [insertBinding, Ascending]
  | cons c rest ih =>
    obtain ⟨y, u⟩ := c
    obtain ⟨hy, hrest⟩ := List.pairwise_cons.mp h
    simp only [insertBinding]
    split
    · rename_i hxy
      refine List.pairwise_cons.mpr ⟨fun b hb => ?_, h⟩
      rcases List.mem_cons.mp hb with rfl | hb
      · exact hxy
      · exact UInt32.lt_trans hxy (hy b hb)
    · split
      · rename_i _ hxy
        subst hxy
        exact List.pairwise_cons.mpr ⟨hy, hrest⟩
      · rename_i hlt hne
        refine List.pairwise_cons.mpr ⟨fun b hb => ?_, ih hrest⟩
        rcases mem_insertBinding hb with rfl | hb
        · rcases UInt32.lt_or_lt_of_ne (Ne.symm hne) with h | h
          · exact h
          · exact absurd h hlt
        · exact hy b hb

theorem lookup_cons (x : Index) (b : Binding) (bs : List Binding) :
    (b :: bs).lookup x = if x = b.1 then some b.2 else bs.lookup x := by
  rw [List.lookup_cons]
  by_cases h : x = b.1
  · rw [if_pos h, beq_iff_eq.mpr h]
  · rw [if_neg h, beq_false_of_ne h]

theorem lookup_insertBinding (x y : Index) (t : Ty) (bs : List Binding) :
    (insertBinding x t bs).lookup y = if y = x then some t else bs.lookup y := by
  induction bs with
  | nil => simp [insertBinding, lookup_cons]
  | cons c rest ih =>
    obtain ⟨z, u⟩ := c
    simp only [insertBinding]
    split
    · rw [lookup_cons]
    · split
      · subst z
        rw [lookup_cons, lookup_cons]
        split <;> rfl
      · rename_i hne
        rw [lookup_cons, lookup_cons, ih]
        by_cases hyz : y = z
        · simp [hyz, Ne.symm hne]
        · simp [hyz]

theorem lookup_eq_none_of_lt {x : Index} {bs : List Binding} (h : ∀ b ∈ bs, x < b.1) :
    bs.lookup x = none := by
  induction bs with
  | nil => rfl
  | cons c rest ih =>
    rw [lookup_cons, if_neg (UInt32.ne_of_lt (h c List.mem_cons_self))]
    exact ih fun b hb => h b (List.mem_cons_of_mem _ hb)

theorem not_lt_of_lookup_eq {b c : Binding} {bs cs : List Binding} (hc : Ascending (c :: cs))
    (h : (b :: bs).lookup b.1 = (c :: cs).lookup b.1) : ¬ b.1 < c.1 := by
  intro hlt
  have hnone : (c :: cs).lookup b.1 = none := by
    apply lookup_eq_none_of_lt
    intro d hd
    rcases List.mem_cons.mp hd with rfl | hd
    · exact hlt
    · exact UInt32.lt_trans hlt ((List.pairwise_cons.mp hc).1 d hd)
  rw [hnone, lookup_cons, if_pos rfl] at h
  cases h

theorem eq_of_lookup_eq {bs cs : List Binding} (hb : Ascending bs) (hc : Ascending cs)
    (h : ∀ x, bs.lookup x = cs.lookup x) : bs = cs := by
  induction bs generalizing cs with
  | nil =>
    cases cs with
    | nil => rfl
    | cons c cs =>
      have := h c.1
      rw [lookup_cons, if_pos rfl] at this
      cases this
  | cons b bs ih =>
    cases cs with
    | nil =>
      have := h b.1
      rw [lookup_cons, if_pos rfl] at this
      cases this
    | cons c cs =>
      have hkey : b.1 = c.1 :=
        UInt32.le_antisymm (UInt32.not_lt.mp (not_lt_of_lookup_eq hb (h c.1).symm))
          (UInt32.not_lt.mp (not_lt_of_lookup_eq hc (h b.1)))
      have hty : b.2 = c.2 := by
        have := h b.1
        rw [lookup_cons, lookup_cons, if_pos rfl, if_pos hkey] at this
        exact Option.some.inj this
      obtain ⟨hb₁, hb₂⟩ := List.pairwise_cons.mp hb
      obtain ⟨hc₁, hc₂⟩ := List.pairwise_cons.mp hc
      rw [Prod.ext hkey hty, ih hb₂ hc₂ fun x => ?_]
      by_cases hx : x = b.1
      · subst hx
        rw [lookup_eq_none_of_lt hb₁, hkey, lookup_eq_none_of_lt hc₁]
      · have := h x
        rwa [lookup_cons, lookup_cons, if_neg hx, if_neg (hkey ▸ hx)] at this

/-! ## The map -/

def empty : Substitution := ⟨[], .nil⟩

def lookup (s : Substitution) (x : Index) : Option Ty := s.bindings.lookup x

def size (s : Substitution) : Nat := s.bindings.length

def insert (s : Substitution) (x : Index) (t : Ty) : Substitution :=
  ⟨insertBinding x t s.bindings, ascending_insertBinding x t s.ascending⟩

/-- Applies `f` to every type that is bound. -/
def map (s : Substitution) (f : Ty → Ty) : Substitution where
  bindings := s.bindings.map fun b => (b.1, f b.2)
  ascending := List.pairwise_map.mpr s.ascending

def single (x : Index) (t : Ty) : Substitution := empty.insert x t

@[ext] theorem ext {s u : Substitution} (h : ∀ x, s.lookup x = u.lookup x) : s = u := by
  obtain ⟨bs, hb⟩ := s
  obtain ⟨cs, hc⟩ := u
  obtain rfl : bs = cs := eq_of_lookup_eq hb hc h
  rfl

@[simp] theorem lookup_empty (x : Index) : empty.lookup x = none := rfl

@[simp] theorem lookup_insert (s : Substitution) (x : Index) (t : Ty) (y : Index) :
    (s.insert x t).lookup y = if y = x then some t else s.lookup y :=
  lookup_insertBinding x y t s.bindings

@[simp] theorem lookup_map (s : Substitution) (f : Ty → Ty) (x : Index) :
    (s.map f).lookup x = (s.lookup x).map f := by
  obtain ⟨bs, hb⟩ := s
  simp only [lookup, map]
  clear hb
  induction bs with
  | nil => rfl
  | cons b bs ih =>
    rw [List.map_cons, lookup_cons, lookup_cons, ih]
    split <;> rfl

@[simp] theorem lookup_single (x : Index) (t : Ty) (y : Index) :
    (single x t).lookup y = if y = x then some t else none := by
  simp [single]

/-! ## Acting on types -/

/-- What a variable stands for. One that is not bound stands for itself. -/
def image (s : Substitution) (x : Index) : Ty := (s.lookup x).getD (.var x)

/-- Replaces the bound variables, all at once, and keeps the others. With nothing bound there is no
need to walk through the type. -/
def apply (s : Substitution) (t : Ty) : Ty :=
  if s.bindings.isEmpty then t else t.instantiate s.image

theorem apply_eq_instantiate (s : Substitution) (t : Ty) : s.apply t = t.instantiate s.image := by
  unfold apply
  split
  · rename_i h
    have himage : s.image = Ty.var := by
      funext x
      rw [image, lookup, List.isEmpty_iff.mp h]
      rfl
    rw [himage, Ty.instantiate_var]
  · rfl

/-- Adds a binding, and puts it to work in the older ones. -/
def bind (s : Substitution) (x : Index) (t : Ty) : Substitution :=
  (s.map (·.substitute x t)).insert x t

@[simp] theorem lookup_bind (s : Substitution) (x : Index) (t : Ty) (y : Index) :
    (s.bind x t).lookup y = if y = x then some t else (s.lookup y).map (·.substitute x t) := by
  simp [bind]

/-- First `b`, then `a`. -/
def compose (a b : Substitution) : Substitution :=
  (b.map a.apply).bindings.foldl (fun s c => s.insert c.1 c.2) a

theorem lookup_foldl_insert (a : Substitution) (bs : List Binding) (h : Ascending bs) (x : Index) :
    (bs.foldl (fun s c => s.insert c.1 c.2) a).lookup x = (bs.lookup x).or (a.lookup x) := by
  induction bs generalizing a with
  | nil => rfl
  | cons b bs ih =>
    obtain ⟨hb, hbs⟩ := List.pairwise_cons.mp h
    rw [List.foldl_cons, ih _ hbs, lookup_insert, lookup_cons]
    by_cases hx : x = b.1
    · subst hx
      simp [lookup_eq_none_of_lt hb]
    · simp [hx]

@[simp] theorem lookup_compose (a b : Substitution) (x : Index) :
    (a.compose b).lookup x = ((b.lookup x).map a.apply).or (a.lookup x) := by
  rw [compose, lookup_foldl_insert _ _ (b.map a.apply).ascending]
  exact congrArg (Option.or · _) (lookup_map b a.apply x)

end Substitution

end Prenex
