import Mathlib.Data.List.Basic
import Prenex.Proofs.Ty.Reader

/-!
# The printer is unambiguous

The printer leaves out packages, modules and fingerprints, and nothing else. The reader finds the
shape, the indices and the names of a legible type in its text again, so two legible types with one
text have them in common.
-/

namespace Prenex.Ty

open Reading

/-- The reader for the place finds the type again, whatever may follow it there. -/
def ReadsAt (t : Ty) (p : Place) : Prop :=
  ∀ n rest, (t.chars p).length ≤ n → Stops p rest →
    readAt n p (t.chars p ++ rest) = some (t.plain, rest)

/-! ## First characters -/

theorem opens_chars {t : Ty} (ht : t.Legible) (p : Place) : Opens (t.chars p) := by
  -- Only the arrow begins with a type, its parameter.
  induction t generalizing p with
  | app h ts ih =>
    obtain ⟨hhead, hargs⟩ := (legible_app h ts).mp ht
    have htop : Opens ((Ty.app h ts).chars .top) := by
      rcases hhead.layout_cases with ⟨rfl, hn⟩ | ⟨rfl, hn⟩ | ⟨hl, -, -⟩ | ⟨hl, htoken⟩
      · obtain ⟨a, b, rfl⟩ := List.length_eq_two.mp hn
        rw [chars_arrow Layout.of_fn]
        exact (ih a (by simp) (hargs a (by simp)) .parameter).append _
      · obtain ⟨a, rfl⟩ := List.length_eq_one_iff.mp hn
        rw [chars_brackets (Layout.of_list 1)]
        exact .inr (.inr rfl)
      · rw [chars_tuple hl]
        exact .inr (.inl rfl)
      · rw [chars_applied hl]
        exact (opens_text htoken).append _
    rw [chars_eq]
    split
    · exact .inr (.inl rfl)
    · exact htop

/-! ## From place to place -/

section

variable {t : Ty}

theorem ReadsAt.read_eq (h : t.ReadsAt .top) {n : Nat} {rest : List Char}
    (hn : (t.chars .top).length < n) (hrest : Stops .top rest) :
    read n (t.chars .top ++ rest) = some (t.plain, rest) := by
  obtain ⟨m, rfl⟩ : ∃ m, n = m + 1 := ⟨n - 1, by omega⟩
  exact h m rest (by omega) hrest

theorem elements_eq {n : Nat} {ts : List Ty} (hne : ts ≠ []) (hts : ∀ t ∈ ts, t.ReadsAt .top)
    (m : Nat) (rest : List Char) (hn : ([','].intercalate (ts.map (chars · .top))).length < n)
    (hm : ([','].intercalate (ts.map (chars · .top))).length < m) :
    elements (read n) m ([','].intercalate (ts.map (chars · .top)) ++ ')' :: rest) =
      some (ts.map plain, rest) := by
  induction ts generalizing m with
  | nil => exact absurd rfl hne
  | cons t ts ih =>
    obtain ⟨k, rfl⟩ : ∃ k, m = k + 1 := ⟨m - 1, by omega⟩
    cases ts with
    | nil =>
      simp only [List.map_cons, List.map_nil, List.intercalate_singleton] at hn ⊢
      have hread := (hts t (by simp)).read_eq hn (.close _ rest (.inl rfl))
      simp [elements, hread]
    | cons u us =>
      simp only [List.map_cons, List.intercalate_cons_cons, List.length_append, List.length_cons,
        List.length_nil] at hn hm ih ⊢
      have hread := fun rest => (hts t (by simp)).read_eq (n := n) (by omega)
        (.close .top rest (.inr (.inr rfl)))
      have hlater :=
        ih (by simp) (fun v hv => hts v (List.mem_cons_of_mem _ hv)) k (by omega) (by omega)
      simp [elements, hread, hlater]

theorem ReadsAt.parameter_of_argument (h : t.ReadsAt .argument)
    (hchars : t.chars .parameter = t.chars .argument) :
    t.ReadsAt .parameter := by
  intro n rest hn hrest
  rw [hchars] at hn ⊢
  have hatom : atom (read n) n (t.chars .argument ++ rest) = some (t.plain, rest) :=
    h n rest hn hrest.argument_of_parameter
  have happly : t.plain.applyTo [] = t.plain := by
    cases t.plain
    simp [applyTo]
  simp [readAt, application, hatom, atoms_of_stops hrest, happly]

theorem ReadsAt.top_of_parameter (h : t.ReadsAt .parameter)
    (hchars : t.chars .top = t.chars .parameter) :
    t.ReadsAt .top := by
  intro n rest hn hrest
  rw [hchars] at hn ⊢
  exact arrows_of_stops (h n rest hn hrest.parameter_of_top) hrest

theorem ReadsAt.argument_of_top (h : t.ReadsAt .top) (ht : t.Legible)
    (hchars : t.chars .argument = '(' :: (t.chars .top ++ [')'])) : t.ReadsAt .argument := by
  intro n rest hn hrest
  rw [hchars] at hn ⊢
  simp only [List.length_cons, List.length_append, List.length_nil] at hn
  have hlength : ([','].intercalate ([t].map (chars · .top))).length < n := by
    rw [List.map_singleton, List.intercalate_singleton]
    omega
  have helements : elements (read n) n (t.chars .top ++ ')' :: rest) = some ([t.plain], rest) := by
    simpa using elements_eq (List.cons_ne_nil t []) (by simpa using h) n rest hlength hlength
  exact atom_parentheses (opens_chars ht .top) helements

theorem ReadsAt.of_argument (h : t.ReadsAt .argument) (hopen : ∀ p, t.chars p = t.chars .top)
    (p : Place) :
    t.ReadsAt p := by
  have hparameter := h.parameter_of_argument ((hopen _).trans (hopen _).symm)
  cases p with
  | argument => exact h
  | parameter => exact hparameter
  | top => exact hparameter.top_of_parameter (hopen _).symm

end

/-! ## The layouts -/

theorem readsAt_arrow {a b : Ty} (ht : (Ty.app (.con Builtin.fn) [a, b]).Legible)
    (ha : a.ReadsAt .parameter) (hb : b.ReadsAt .top) (p : Place) :
    (Ty.app (.con Builtin.fn) [a, b]).ReadsAt p := by
  have htop : (Ty.app (.con Builtin.fn) [a, b]).ReadsAt .top := by
    intro n rest hn hrest
    rw [chars_arrow Layout.of_fn] at hn ⊢
    simp only [List.length_cons, List.length_append] at hn
    have hparameter :
        application (read n) n
            (a.chars .parameter ++ ' ' :: '-' :: '>' :: ' ' :: (b.chars .top ++ rest)) =
          some (a.plain, ' ' :: '-' :: '>' :: ' ' :: (b.chars .top ++ rest)) :=
      ha n _ (by omega) (.arrow _ (by decide))
    have hresult : read n (b.chars .top ++ rest) = some (b.plain, rest) :=
      hb.read_eq (by omega) hrest
    rw [List.append_assoc, readAt]
    exact arrows_arrow hparameter hresult
  -- Everywhere else it stands in parentheses.
  have henclosed : ∀ q, q ≠ .top → (Ty.app (.con Builtin.fn) [a, b]).chars q =
      '(' :: ((Ty.app (.con Builtin.fn) [a, b]).chars .top ++ [')']) := by
    intro q hq
    rw [chars_eq, List.length_cons, List.length_singleton, Layout.of_fn, if_pos]
    simpa [Layout.enclosed] using hq
  have hargument := htop.argument_of_top ht (henclosed _ (by decide))
  cases p with
  | top => exact htop
  | argument => exact hargument
  | parameter =>
    exact hargument.parameter_of_argument
      ((henclosed _ (by decide)).trans (henclosed _ (by decide)).symm)

theorem readsAt_brackets {a : Ty} (ha : a.ReadsAt .top) (hlegible : a.Legible) (p : Place) :
    (Ty.app (.con Builtin.list) [a]).ReadsAt p := by
  have hopen : ∀ q, (Ty.app (.con Builtin.list) [a]).chars q =
      (Ty.app (.con Builtin.list) [a]).chars .top := by
    intro q
    simp [chars_eq _ _ q, Layout.of_list, Layout.enclosed]
  apply ReadsAt.of_argument _ hopen
  intro n rest hn hrest
  rw [hopen, chars_brackets (Layout.of_list 1)] at hn ⊢
  simp only [List.length_cons, List.length_append] at hn
  have hinner : read n (a.chars .top ++ ']' :: rest) = some (a.plain, ']' :: rest) :=
    ha.read_eq (by omega) (.close _ rest (.inr (.inl rfl)))
  rw [readAt, atom_brackets (opens_chars hlegible .top) hinner]
  rfl

theorem readsAt_tuple {h : Head} {ts : List Ty} (ht : (Ty.app h ts).Legible)
    (hlayout : Layout.of h ts.length = .tuple) (hlength : 2 ≤ ts.length)
    (hname : h.plain = .con (Builtin.named (Builtin.tupleName ts.length)))
    (hts : ∀ t ∈ ts, t.ReadsAt .top) (p : Place) : (Ty.app h ts).ReadsAt p := by
  have hopen : ∀ q, (Ty.app h ts).chars q = (Ty.app h ts).chars .top := by
    intro q
    simp [chars_eq _ _ q, hlayout, Layout.enclosed]
  apply ReadsAt.of_argument _ hopen
  intro n rest hn hrest
  rw [hopen, chars_tuple hlayout] at hn ⊢
  simp only [List.length_cons, List.length_append] at hn
  obtain ⟨t, u, us, rfl⟩ : ∃ t u us, ts = t :: u :: us := by
    rcases ts with _ | ⟨t, _ | ⟨u, us⟩⟩
    · simp at hlength
    · simp at hlength
    · exact ⟨t, u, us, rfl⟩
  have helements := elements_eq (n := n) (by simp) hts n rest (by omega) (by omega)
  have hopens : Opens ([','].intercalate ((t :: u :: us).map (chars · .top))) := by
    rw [List.map_cons, List.map_cons, List.intercalate_cons_cons, List.append_assoc]
    exact (opens_chars (((legible_app _ _).mp ht).2 t (by simp)) .top).append _
  rw [readAt, atom_parentheses hopens helements, plain_app, hname]
  simp [tuple, con]

theorem stops_arguments {ts : List Ty} (hts : ∀ t ∈ ts, t.Legible) {rest : List Char}
    (hrest : Stops .parameter rest) :
    Stops .argument ((ts.flatMap fun t => ' ' :: t.chars .argument) ++ rest) := by
  cases ts with
  | nil => exact hrest.argument_of_parameter
  | cons t ts =>
    simp only [List.flatMap_cons, List.cons_append, List.append_assoc]
    exact .argument ((opens_chars (hts t List.mem_cons_self) .argument).append _)

theorem atoms_eq {n : Nat} {ts : List Ty} (hts : ∀ t ∈ ts, t.Legible ∧ t.ReadsAt .argument)
    (m : Nat) {rest : List Char} (hrest : Stops .parameter rest)
    (hn : (ts.flatMap fun t => ' ' :: t.chars .argument).length ≤ n)
    (hm : (ts.flatMap fun t => ' ' :: t.chars .argument).length ≤ m) :
    atoms (read n) n m ((ts.flatMap fun t => ' ' :: t.chars .argument) ++ rest) =
      some (ts.map plain, rest) := by
  induction ts generalizing m with
  | nil => exact atoms_of_stops hrest
  | cons t ts ih =>
    simp only [List.flatMap_cons, List.length_append, List.length_cons] at hn hm
    obtain ⟨k, rfl⟩ : ∃ k, m = k + 1 := ⟨m - 1, by omega⟩
    obtain ⟨hlegible, hreads⟩ := hts t List.mem_cons_self
    have hlater := ih (fun u hu => hts u (List.mem_cons_of_mem _ hu)) k (by omega) (by omega)
    have hstops := stops_arguments (fun u hu => (hts u (List.mem_cons_of_mem _ hu)).1) hrest
    have hatom := hreads n _ (by omega) hstops
    obtain ⟨c, tail, hc, -, -, -, hdash⟩ := (opens_chars hlegible .argument).exists_cons
    rw [readAt, hc, List.cons_append] at hatom
    simp [hc, atoms, hdash, hatom, hlater]

theorem readsAt_applied {h : Head} {ts : List Ty} (ht : (Ty.app h ts).Legible) (htoken : h.IsToken)
    (hlayout : Layout.of h ts.length = .applied) (hts : ∀ t ∈ ts, t.ReadsAt .argument) (p : Place) :
    (Ty.app h ts).ReadsAt p := by
  have hlegible := ((legible_app h ts).mp ht).2
  have hopen : (Ty.app h ts).chars .top = (Ty.app h ts).chars .parameter := by
    simp [chars_eq _ _ .parameter, hlayout, Layout.enclosed]
  have hparameter : (Ty.app h ts).ReadsAt .parameter := by
    intro n rest hn hrest
    rw [← hopen, chars_applied hlayout] at hn ⊢
    rw [List.length_append] at hn
    have hatoms :=
      atoms_eq (n := n) (fun t ht => ⟨hlegible t ht, hts t ht⟩) n hrest (by omega) (by omega)
    have hstops := stops_arguments hlegible hrest
    rw [List.append_assoc, readAt, application, atom_token htoken hstops]
    simp [hatoms, applyTo]
  have htop := hparameter.top_of_parameter hopen
  cases p with
  | top => exact htop
  | parameter => exact hparameter
  | argument =>
    cases ts with
    | nil =>
      intro n rest hn hrest
      rw [chars_eq, hlayout, if_neg (by simp [Layout.enclosed]), chars_applied hlayout]
      simpa [readAt] using atom_token htoken hrest
    | cons t ts =>
      apply htop.argument_of_top ht
      rw [chars_eq, hlayout, if_pos (by simp [Layout.enclosed])]

/-! ## Texts and types -/

theorem Legible.readsAt {t : Ty} (ht : t.Legible) (p : Place) : t.ReadsAt p := by
  induction t generalizing p with
  | app h ts ih =>
    obtain ⟨hhead, hargs⟩ := (legible_app h ts).mp ht
    have hts : ∀ t ∈ ts, ∀ q, t.ReadsAt q := fun t ht q => ih t ht (hargs t ht) q
    rcases hhead.layout_cases with
      ⟨rfl, hn⟩ | ⟨rfl, hn⟩ | ⟨hlayout, hlength, hname⟩ | ⟨hlayout, htoken⟩
    · obtain ⟨a, b, rfl⟩ := List.length_eq_two.mp hn
      exact readsAt_arrow ht (hts a (by simp) _) (hts b (by simp) _) p
    · obtain ⟨a, rfl⟩ := List.length_eq_one_iff.mp hn
      exact readsAt_brackets (hts a (by simp) _) (hargs a (by simp)) p
    · exact readsAt_tuple ht hlayout hlength hname (fun t ht => hts t ht _) p
    · exact readsAt_applied ht htoken hlayout (fun t ht => hts t ht _) p

theorem read_text {t : Ty} (ht : t.Legible) {n : Nat} (hn : t.text.toList.length < n) :
    read n t.text.toList = some (t.plain, []) := by
  have hread := (ht.readsAt .top).read_eq hn (.finish _)
  rwa [List.append_nil] at hread

/-- The printer is unambiguous. -/
theorem plain_eq_of_text_eq (a b : Ty) (ha : a.Legible) (hb : b.Legible) (h : a.text = b.text) :
    a.plain = b.plain := by
  have hread := read_text ha (Nat.lt_succ_self _)
  rw [h, read_text hb (Nat.lt_succ_self _)] at hread
  simpa using hread.symm

theorem plain_eq_of_text_eq_packages :
    let t := fun c : Constructor =>
      Ty.fn (.con c [.var 0]) (.list (.tuple [.app (.skolem 1) [], .con c []]))
    let c := Constructor.of "left" "Data" "Box"
    let d := Constructor.of "right" "Main" "Box"
    (t c == t d) = false ∧ (t c).text = (t d).text ∧ (t c).plain = (t d).plain := by
  intro t c d
  have hlegible : ∀ e, e.IsWord → Builtin.Apart e → (t e).Legible := by
    intro e hword hapart
    have hpair : Builtin.Apart (Builtin.named (Builtin.tupleName 2)) := by decide +kernel
    simp only [t, fn, list, tuple, con, var, legible_app, List.forall_mem_cons, List.not_mem_nil,
      List.length_cons, List.length_nil]
    simp [Head.Legible, Constructor.Legible.fn, Constructor.Legible.list,
      Constructor.Legible.word _ hword hapart, Constructor.Legible.tuple (k := 2) 2 rfl hpair]
  have hc : (t c).Legible :=
    hlegible c ⟨by decide, by decide, by decide, by decide⟩ (by decide +kernel)
  have hd : (t d).Legible :=
    hlegible d ⟨by decide, by decide, by decide, by decide⟩ (by decide +kernel)
  have htext : (t c).text = (t d).text := by decide +kernel
  exact ⟨by decide +kernel, htext, plain_eq_of_text_eq _ _ hc hd htext⟩

-- An arrow without its arguments can be taken for an arrow between its neighbours.
example :
    (Ty.con (Builtin.named "Option") [.con Builtin.fn [], .var 0]).text =
      (Ty.fn (.con (Builtin.named "Option") []) (.var 0)).text := by
  decide +kernel

end Prenex.Ty
