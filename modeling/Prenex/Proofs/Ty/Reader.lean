import Prenex.Proofs.Ty.Printer

/-!
# A reader for printed types

There is one reader for each place, on top of a reader for the texts inside. A type ends where its
text does, as nothing that may follow it there can continue it.
-/

namespace Prenex

/-! ## The reader -/

/-- No digits stand for 0. -/
def Head.indexOfDigits (digits : List Char) : Index := .ofNat (Nat.ofDigitChars 10 digits 0)

def Head.ofWord : List Char → Head
  | 'A' :: 'N' :: 'Y' :: digits => .var (indexOfDigits digits)
  | 'S' :: 'K' :: 'O' :: 'L' :: 'E' :: 'M' :: digits => .skolem (indexOfDigits digits)
  | name => .con (Builtin.named (String.ofList name))

namespace Reading

/-- Takes a value off the front of a text. -/
abbrev Reader (α : Type) := List Char → Option (α × List Char)

/-- Types with commas between them, up to the closing parenthesis. -/
def elements (inner : Reader Ty) : (fuel : Nat) → Reader (List Ty)
  | 0, _ => none
  | n + 1, cs => do
    let (t, rest) ← inner cs
    match rest with
    | ',' :: rest =>
      let (ts, rest) ← elements inner n rest
      some (t :: ts, rest)
    | ')' :: rest => some ([t], rest)
    | _ => none

/-- What follows an opening parenthesis: commas alone are part of a name. -/
def parenthesis (inner : Reader Ty) (fuel : Nat) : Reader Ty := fun cs =>
  match cs.dropWhile (· == ',') with
  | ')' :: rest =>
    some (.con (Builtin.named (String.ofList ('(' :: (cs.takeWhile (· == ',') ++ [')'])))) [], rest)
  | _ => do
    let (ts, rest) ← elements inner fuel cs
    some (.tuple ts, rest)

/-- What follows an opening bracket. -/
def bracket (inner : Reader Ty) : Reader Ty
  | ']' :: rest => some (.con Builtin.list [], rest)
  | cs => do
    let (t, rest) ← inner cs
    match rest with
    | ']' :: rest => some (.list t, rest)
    | _ => none

def atom (inner : Reader Ty) (fuel : Nat) : Reader Ty
  | '(' :: cs => parenthesis inner fuel cs
  | '[' :: cs => bracket inner cs
  | cs => some (.app (.ofWord (cs.takeWhile Char.isAlphanum)) [], cs.dropWhile Char.isAlphanum)

/-- Atoms with a blank before each, up to an arrow. -/
def atoms (inner : Reader Ty) (depth : Nat) : (fuel : Nat) → Reader (List Ty)
  | n + 1, ' ' :: c :: cs =>
    if c = '-' then some ([], ' ' :: c :: cs)
    else do
      let (t, rest) ← atom inner depth (c :: cs)
      let (ts, rest) ← atoms inner depth n rest
      some (t :: ts, rest)
  | _, cs => some ([], cs)

def application (inner : Reader Ty) (fuel : Nat) : Reader Ty := fun cs => do
  let (t, rest) ← atom inner fuel cs
  let (ts, rest) ← atoms inner fuel fuel rest
  some (t.applyTo ts, rest)

def arrows (inner : Reader Ty) (fuel : Nat) : Reader Ty := fun cs => do
  let (a, rest) ← application inner fuel cs
  match rest with
  | ' ' :: '-' :: '>' :: ' ' :: rest =>
    let (b, rest) ← inner rest
    some (.fn a b, rest)
  | rest => some (a, rest)

/-- Reads a type that stands on its own. One more than the length of the text is enough fuel. -/
def read : (fuel : Nat) → Reader Ty
  | 0, _ => none
  | n + 1, cs => arrows (read n) n cs

def readAt (n : Nat) : Place → Reader Ty
  | .top => arrows (read n) n
  | .parameter => application (read n) n
  | .argument => atom (read n) n

/-! ## What may follow a type -/

/-- Begins as a type does. -/
def Opens : List Char → Prop
  | [] => False
  | c :: _ => c.isAlphanum = true ∨ c = '(' ∨ c = '['

/-- What may follow a type at a place. -/
inductive Stops : Place → List Char → Prop
  | finish (p : Place) : Stops p []
  | close {c : Char} (p : Place) (rest : List Char) :
      c = ')' ∨ c = ']' ∨ c = ',' → Stops p (c :: rest)
  | arrow {p : Place} (rest : List Char) : p ≠ .top → Stops p (' ' :: '-' :: '>' :: ' ' :: rest)
  | argument {rest : List Char} : Opens rest → Stops .argument (' ' :: rest)

theorem Opens.append {cs : List Char} (h : Opens cs) (rest : List Char) : Opens (cs ++ rest) := by
  cases cs with
  | nil => exact h.elim
  | cons c cs => exact h

theorem Opens.exists_cons {cs : List Char} (h : Opens cs) :
    ∃ c tail, cs = c :: tail ∧ c ≠ ')' ∧ c ≠ ']' ∧ c ≠ ',' ∧ c ≠ '-' := by
  cases cs with
  | nil => exact h.elim
  | cons c cs =>
    refine ⟨c, cs, rfl, ?_⟩
    rcases h with h | rfl | rfl
    · refine ⟨?_, ?_, ?_, ?_⟩
      all_goals rintro rfl; exact absurd h (by decide)
    · decide
    · decide

theorem Stops.parameter_of_top {rest : List Char} (h : Stops .top rest) :
    Stops .parameter rest := by
  cases h with
  | finish => exact .finish _
  | close _ rest hc => exact .close _ rest hc
  | arrow rest hp => exact absurd rfl hp

theorem Stops.argument_of_parameter {rest : List Char} (h : Stops .parameter rest) :
    Stops .argument rest := by
  cases h with
  | finish => exact .finish _
  | close _ rest hc => exact .close _ rest hc
  | arrow rest hp => exact .arrow rest (by decide)

theorem Stops.head?_isAlphanum {p : Place} {rest : List Char} (h : Stops p rest) :
    ∀ c ∈ rest.head?, c.isAlphanum = false := by
  cases h with
  | finish => simp
  | close _ rest hc => rcases hc with rfl | rfl | rfl <;> simp
  | arrow | argument => simp

/-! ## Tokens -/

theorem takeWhile_append_of_stop {p : Char → Bool} {w rest : List Char} (hw : ∀ c ∈ w, p c = true)
    (hrest : ∀ c ∈ rest.head?, p c = false) :
    (w ++ rest).takeWhile p = w ∧ (w ++ rest).dropWhile p = rest := by
  rw [List.takeWhile_append_of_pos hw, List.dropWhile_append_of_pos hw]
  cases rest with
  | nil => simp
  | cons c rest => simp [hrest c rfl]

theorem indexOfDigits_indexText (i : Index) : Head.indexOfDigits (indexText i).toList = i := by
  unfold Head.indexOfDigits indexText
  split
  · next h => rw [h]; rfl
  · have hdigits : (toString i.toNat).toList = Nat.toDigits 10 i.toNat := by
      rw [Nat.toString_eq_repr, Nat.toList_repr]
    rw [hdigits, Nat.ofDigitChars_ten_toDigits, UInt32.ofNat_toNat]

theorem isAlphanum_append_indexText {stem : String}
    (hstem : stem.toList.all Char.isAlphanum = true) (i : Index) :
    ∀ c ∈ (stem ++ indexText i).toList, c.isAlphanum = true := by
  rw [String.toList_append, List.forall_mem_append]
  refine ⟨List.all_eq_true.mp hstem, fun c hc => ?_⟩
  unfold indexText at hc
  split at hc
  · simp at hc
  · rw [Nat.toString_eq_repr, Nat.toList_repr] at hc
    have hdigit := Nat.isDigit_of_mem_toDigits (by omega) (by omega) hc
    simp [Char.isAlphanum, hdigit]

theorem ofWord_name {c : Constructor} (h : c.IsWord) :
    Head.ofWord c.name.toList = .con (Builtin.named c.name) := by
  unfold Head.ofWord
  split
  case h_1 digits hname => exact absurd ⟨digits, hname.symm⟩ h.not_any
  case h_2 digits hname => exact absurd ⟨digits, hname.symm⟩ h.not_skolem
  case h_3 => rw [String.ofList_toList]

variable {inner : Reader Ty} {n : Nat}

theorem atom_word {w rest : List Char} (hne : w ≠ []) (hw : ∀ c ∈ w, c.isAlphanum = true)
    (hrest : Stops .argument rest) :
    atom inner n (w ++ rest) = some (.app (.ofWord w) [], rest) := by
  obtain ⟨htake, hdrop⟩ := takeWhile_append_of_stop hw hrest.head?_isAlphanum
  obtain ⟨c, w, rfl⟩ := List.exists_cons_of_ne_nil hne
  have hc := hw c List.mem_cons_self
  unfold atom
  split
  case h_1 cs heq =>
    obtain rfl : c = '(' := (List.cons.inj heq).1
    exact absurd hc (by decide)
  case h_2 cs heq =>
    obtain rfl : c = '[' := (List.cons.inj heq).1
    exact absurd hc (by decide)
  case h_3 => rw [htake, hdrop]

theorem atom_commas (k : Nat) (rest : List Char) :
    atom inner n ('(' :: (List.replicate k ',' ++ [')']) ++ rest) =
      some (.con (Builtin.named (String.ofList ('(' :: (List.replicate k ',' ++ [')'])))) [],
        rest) := by
  have hcommas : ∀ c ∈ List.replicate k ',', (c == ',') = true := by simp
  have hstop : ∀ c ∈ (')' :: rest).head?, (c == ',') = false := by simp
  obtain ⟨htake, hdrop⟩ := takeWhile_append_of_stop hcommas hstop
  rw [List.cons_append, List.append_assoc, List.singleton_append]
  simp only [atom, parenthesis, htake, hdrop]

theorem atom_token {h : Head} {rest : List Char} (hh : h.IsToken) (hrest : Stops .argument rest) :
    atom inner n (h.text.toList ++ rest) = some (.app h.plain [], rest) := by
  cases hh with
  | var i =>
    have hword : Head.ofWord ("ANY" ++ indexText i).toList = .var i := by
      simp [Head.ofWord, indexOfDigits_indexText]
    rw [Head.text, atom_word (by simp) (isAlphanum_append_indexText (by decide) i) hrest, hword]
    rfl
  | skolem i =>
    have hword : Head.ofWord ("SKOLEM" ++ indexText i).toList = .skolem i := by
      simp [Head.ofWord, indexOfDigits_indexText]
    rw [Head.text, atom_word (by simp) (isAlphanum_append_indexText (by decide) i) hrest, hword]
    rfl
  | @word c hword =>
    have hne : c.name.toList ≠ [] := by simpa using hword.ne_empty
    rw [Head.text, atom_word hne (List.all_eq_true.mp hword.all_isAlphanum) hrest,
      ofWord_name hword]
    rfl
  | list => rfl
  | @commas c k hname =>
    have hplain : c.name = String.ofList ('(' :: (List.replicate k ',' ++ [')'])) := by
      rw [← hname, String.ofList_toList]
    rw [Head.text, hname, atom_commas, Head.plain, hplain]
    rfl

theorem opens_text {h : Head} (hh : h.IsToken) : Opens h.text.toList := by
  cases hh with
  | var i => simp [Head.text, Opens]
  | skolem i => simp [Head.text, Opens]
  | @word c hword =>
    have hne : c.name.toList ≠ [] := by simpa using hword.ne_empty
    obtain ⟨x, xs, hname⟩ := List.exists_cons_of_ne_nil hne
    have hx : x.isAlphanum = true := List.all_eq_true.mp hword.all_isAlphanum x (by simp [hname])
    simp [Head.text, hname, Opens, hx]
  | list => simp [Head.text, Builtin.list, Builtin.named, Constructor.of, Constructor.ofName, Opens]
  | commas k hname => simp [Head.text, hname, Opens]

/-! ## The end of a type -/

theorem atoms_of_stops {m : Nat} {rest : List Char} (h : Stops .parameter rest) :
    atoms inner n m rest = some ([], rest) := by
  cases h with
  | finish => cases m <;> rfl
  | close _ rest hc =>
    rcases hc with rfl | rfl | rfl
    all_goals cases m <;> rfl
  | arrow rest hp => cases m <;> rfl

theorem arrows_of_stops {cs rest : List Char} {t : Ty}
    (ht : application inner n cs = some (t, rest)) (hrest : Stops .top rest) :
    arrows inner n cs = some (t, rest) := by
  simp only [arrows, ht]
  cases hrest with
  | finish => rfl
  | close _ rest hc => rcases hc with rfl | rfl | rfl <;> rfl
  | arrow rest hp => exact absurd rfl hp

/-! ## Texts with types inside -/

theorem arrows_arrow {cs cs' rest : List Char} {a b : Ty}
    (ha : application inner n cs = some (a, ' ' :: '-' :: '>' :: ' ' :: cs'))
    (hb : inner cs' = some (b, rest)) :
    arrows inner n cs = some (.fn a b, rest) := by
  simp [arrows, ha, hb]

theorem atom_parentheses {cs rest : List Char} {ts : List Ty} (hcs : Opens cs)
    (helements : elements inner n (cs ++ ')' :: rest) = some (ts, rest)) :
    atom inner n ('(' :: (cs ++ [')']) ++ rest) = some (.tuple ts, rest) := by
  obtain ⟨c, tail, rfl, hclose, -, hcomma, -⟩ := hcs.exists_cons
  have hdrop : (c :: tail ++ ')' :: rest).dropWhile (· == ',') = c :: tail ++ ')' :: rest := by
    simp [hcomma]
  rw [List.cons_append, List.append_assoc, List.singleton_append]
  unfold atom parenthesis
  simp only [hdrop]
  split
  case h_1 heq => exact absurd (List.cons.inj heq).1 hclose
  case h_2 => rw [helements]; rfl

theorem atom_brackets {cs rest : List Char} {t : Ty} (hcs : Opens cs)
    (hinner : inner (cs ++ ']' :: rest) = some (t, ']' :: rest)) :
    atom inner n ('[' :: (cs ++ [']']) ++ rest) = some (.list t, rest) := by
  obtain ⟨c, tail, rfl, -, hclose, -, -⟩ := hcs.exists_cons
  rw [List.cons_append, List.append_assoc, List.singleton_append]
  unfold atom bracket
  simp only
  split
  case h_1 heq => exact absurd (List.cons.inj heq).1 hclose
  case h_2 => rw [hinner]; rfl

end Reading

end Prenex
