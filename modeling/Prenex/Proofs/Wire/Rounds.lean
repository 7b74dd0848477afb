import Mathlib.Data.List.Chain
import Mathlib.Logic.Relation
import Prenex.Proofs.Wire.Slices

/-!
# The rounds of the reader

The loop that reads nodes has an inner loop, which hands finished types to the stack. A node may
announce as many arguments as it likes, but it has been paid for with at least nine bytes, and so
has every frame on the stack and every node that a frame holds. So the number of rounds is bounded
by the length of the input, and so is what the stack holds.
-/

namespace Prenex

namespace Wire

open Grammar (Offset)

/-! ## Nodes and bytes -/

/-- A tag, an index and a count. -/
def minNodeLength : Nat := 9

theorem minNodeLength_le (node : Head × Nat) : minNodeLength ≤ (encodeNode node).length := by
  obtain ⟨h, n⟩ := node
  cases h with
  | con c =>
    simp [encodeNode, encodeHead, encodeConstructor, encodeText, encodeLength, minNodeLength]
    omega
  | var i => simp [encodeNode, encodeHead, encodeIndex, encodeLength, minNodeLength]
  | skolem i => simp [encodeNode, encodeHead, encodeIndex, encodeLength, minNodeLength]

theorem exists_at_of_node {b : Bytes} {i : Offset b} {node : Head × Nat} {rest : Cursor}
    (h : Reader.node (.at b i) = .ok (node, rest)) :
    ∃ k : Offset b, rest = .at b k ∧ i.val + minNodeLength ≤ k.val := by
  rw [follows_node i] at h
  rcases hheader : Grammar.header i with e | ⟨⟨hd, n⟩, k⟩
  · rw [hheader] at h
    cases h
  · rw [hheader] at h
    cases h
    obtain ⟨-, -, hk⟩ := Grammar.header_eq_ok_iff.mp hheader
    have := minNodeLength_le (hd, n)
    exact ⟨k, rfl, by omega⟩

theorem Cursor.exists_eq_at (c : Cursor) : ∃ (b : Bytes) (i : Offset b), c = .at b i := by
  have hpos : c.pos < (List.replicate c.pos 0 ++ c.rest : Bytes).length + 1 := by
    rw [List.length_append, List.length_replicate]
    omega
  refine ⟨List.replicate c.pos 0 ++ c.rest, ⟨c.pos, hpos⟩, ?_⟩
  simp [Cursor.at]

theorem rest_length_of_node {c rest : Cursor} {node : Head × Nat}
    (h : Reader.node c = .ok (node, rest)) :
    rest.rest.length + minNodeLength ≤ c.rest.length := by
  obtain ⟨b, i, rfl⟩ := c.exists_eq_at
  obtain ⟨k, rfl, hk⟩ := exists_at_of_node h
  have := k.isLt
  simp only [Cursor.at, List.length_drop]
  omega

/-! ## One round -/

/-- Where the loops stand: in front of a node, or with a finished type for the stack. -/
inductive Loop where
  | reading (stack : List Frame) (c : Cursor)
  | handing (t : Ty) (stack : List Frame) (c : Cursor)

namespace Loop

def start (b : Bytes) : Loop := .reading [] ⟨0, b⟩

def cursor : Loop → Cursor
  | .reading _ c => c
  | .handing _ _ c => c

/-- A round of the outer loop reads a node, a round of the inner loop takes a frame from the stack.
There is another round, or this one gives the answer. -/
def round : Loop → Loop ⊕ Except Fault (Ty × Cursor)
  | .reading stack c =>
    match Reader.node c with
    | .error e => .inr (.error e)
    | .ok ((h, 0), rest) => .inl (.handing (.app h []) stack rest)
    | .ok ((h, n + 1), rest) => .inl (.reading (⟨h, [], n⟩ :: stack) rest)
  | .handing t [] c => .inr (.ok (t, c))
  | .handing t (⟨h, args, 0⟩ :: stack) c => .inl (.handing (.app h (t :: args).reverse) stack c)
  | .handing t (⟨h, args, n + 1⟩ :: stack) c => .inl (.reading (⟨h, t :: args, n⟩ :: stack) c)

/-- The rounds after which there is another one. -/
inductive Next : Loop → Loop → Prop
  | leaf {stack : List Frame} {c rest : Cursor} {h : Head} : Reader.node c = .ok ((h, 0), rest) →
      Next (.reading stack c) (.handing (.app h []) stack rest)
  | branch {stack : List Frame} {c rest : Cursor} {h : Head} {n : Nat} :
      Reader.node c = .ok ((h, n + 1), rest) →
      Next (.reading stack c) (.reading (⟨h, [], n⟩ :: stack) rest)
  | complete {t : Ty} {h : Head} {args : List Ty} {stack : List Frame} {c : Cursor} :
      Next (.handing t (⟨h, args, 0⟩ :: stack) c) (.handing (.app h (t :: args).reverse) stack c)
  | wait {t : Ty} {h : Head} {args : List Ty} {n : Nat} {stack : List Frame} {c : Cursor} :
      Next (.handing t (⟨h, args, n + 1⟩ :: stack) c) (.reading (⟨h, t :: args, n⟩ :: stack) c)

theorem next_iff_round (p q : Loop) : Next p q ↔ p.round = .inl q := by
  constructor
  · intro h
    rcases h with hnode | hnode | _ | _
    · simp only [round, hnode]
    · simp only [round, hnode]
    · rfl
    · rfl
  · intro h
    unfold round at h
    split at h
    · split at h
      · cases h
      · rename_i hnode
        cases h
        exact .leaf hnode
      · rename_i hnode
        cases h
        exact .branch hnode
    · cases h
    · cases h
      exact .complete
    · cases h
      exact .wait

/-- What the loops give in the end. -/
def answer : Loop → Except Fault (Ty × Cursor)
  | .reading stack c => readType stack c
  | .handing t stack c => resume stack t c

theorem answer_of_next {p q : Loop} (h : Next p q) : p.answer = q.answer := by
  rcases h with hnode | hnode | _ | _
  · exact readType_of_leaf hnode
  · exact readType_of_branch hnode
  · rfl
  · rfl

theorem answer_of_round {p : Loop} {r : Except Fault (Ty × Cursor)} (h : p.round = .inr r) :
    p.answer = r := by
  unfold round at h
  split at h
  · split at h
    · rename_i hnode
      cases h
      exact readType_of_error hnode
    · cases h
    · cases h
  · cases h
    rfl
  · cases h
  · cases h

/-! ## The number of rounds -/

/-- Each node that fits the rest may be read and handed on, and each frame that is there may be
completed. -/
def maxRounds : Loop → Nat
  | .reading stack c => 2 * (c.rest.length / minNodeLength) + stack.length + 1
  | .handing _ stack c => 2 * (c.rest.length / minNodeLength) + stack.length + 2

theorem maxRounds_lt_of_next {p q : Loop} (h : Next p q) : q.maxRounds < p.maxRounds := by
  rcases h with hnode | hnode | _ | _
  · have := rest_length_of_node hnode
    unfold minNodeLength at this
    simp only [maxRounds, minNodeLength]
    omega
  · have := rest_length_of_node hnode
    unfold minNodeLength at this
    simp only [maxRounds, minNodeLength, List.length_cons]
    omega
  · simp only [maxRounds, List.length_cons]
    omega
  · simp only [maxRounds, List.length_cons]
    omega

theorem length_lt_maxRounds {p : Loop} {qs : List Loop} (h : (p :: qs).IsChain Next) :
    qs.length < p.maxRounds := by
  induction qs generalizing p with
  | nil =>
    cases p with
    | reading => exact Nat.succ_pos _
    | handing => exact Nat.succ_pos _
  | cons q qs ih =>
    obtain ⟨hnext, hrest⟩ := List.isChain_cons_cons.mp h
    have := maxRounds_lt_of_next hnext
    have := ih hrest
    rw [List.length_cons]
    omega

/-- The loops, stopped after `n` rounds. -/
def answerWithin (p : Loop) : (n : Nat) → Option (Except Fault (Ty × Cursor))
  | 0 => none
  | n + 1 =>
    match p.round with
    | .inr r => some r
    | .inl q => q.answerWithin n

theorem answerWithin_eq {p : Loop} {n : Nat} (h : p.maxRounds ≤ n) :
    p.answerWithin n = some p.answer := by
  induction n generalizing p with
  | zero =>
    have := length_lt_maxRounds (p := p) (.singleton p)
    simp only [List.length_nil] at this
    omega
  | succ n ih =>
    unfold answerWithin
    rcases hround : p.round with q | r
    · have hnext := (next_iff_round p q).mpr hround
      have := maxRounds_lt_of_next hnext
      rw [answer_of_next hnext]
      exact ih (by omega)
    · rw [answer_of_round hround]

/-! ## What is held -/

/-- The nodes that wait on a stack: the frames, and the types they have. -/
def heldBy : List Frame → Nat
  | [] => 0
  | f :: stack => 1 + Ty.totalSize f.args + heldBy stack

def held : Loop → Nat
  | .reading stack _ => heldBy stack
  | .handing t stack _ => t.size + heldBy stack

theorem totalSize_reverse (ts : List Ty) : Ty.totalSize ts.reverse = Ty.totalSize ts := by
  induction ts with
  | nil => rfl
  | cons t ts ih =>
    rw [List.reverse_cons, Ty.totalSize_append, ih]
    simp only [Ty.totalSize]
    omega

/-- A round of the outer loop reads one more node. The inner loop reads nothing, and only puts nodes
together. -/
theorem held_of_next {p q : Loop} (h : Next p q) :
    (∃ node, Reader.node p.cursor = .ok (node, q.cursor) ∧ q.held = p.held + 1) ∨
    q.cursor = p.cursor ∧ q.held = p.held := by
  rcases h with hnode | hnode | _ | _
  · refine .inl ⟨_, hnode, ?_⟩
    simp only [held, Ty.size_app, Ty.totalSize]
    omega
  · refine .inl ⟨_, hnode, ?_⟩
    simp only [held, heldBy, Ty.totalSize]
    omega
  · refine .inr ⟨rfl, ?_⟩
    simp only [held, heldBy, Ty.size_app, totalSize_reverse, Ty.totalSize]
    omega
  · refine .inr ⟨rfl, ?_⟩
    simp only [held, heldBy, Ty.totalSize]
    omega

/-- The cursor stands in the input, and what is held has been paid for. -/
structure Inside (b : Bytes) (p : Loop) : Prop where
  place : ∃ i : Offset b, p.cursor = .at b i
  held : minNodeLength * p.held ≤ p.cursor.pos

theorem inside_start (b : Bytes) : Inside b (start b) where
  place := ⟨0, rfl⟩
  held := Nat.le_refl 0

theorem Inside.pos_le {b : Bytes} {p : Loop} (h : Inside b p) : p.cursor.pos ≤ b.length := by
  obtain ⟨i, hi⟩ := h.place
  rw [hi]
  exact Nat.le_of_lt_succ i.isLt

theorem Inside.total_eq {b : Bytes} {p : Loop} (h : Inside b p) : p.cursor.total = b.length := by
  obtain ⟨i, hi⟩ := h.place
  have := i.isLt
  rw [hi]
  simp only [Cursor.total, Cursor.at, List.length_drop]
  omega

theorem Inside.next {b : Bytes} {p q : Loop} (h : Next p q) (hp : Inside b p) : Inside b q := by
  obtain ⟨⟨i, hi⟩, hpaid⟩ := hp
  rcases held_of_next h with ⟨node, hnode, hheld⟩ | ⟨hcursor, hheld⟩
  · rw [hi] at hnode hpaid
    obtain ⟨k, hk, hlt⟩ := exists_at_of_node hnode
    refine ⟨⟨k, hk⟩, ?_⟩
    rw [hheld, hk, Nat.mul_succ]
    exact Nat.le_trans (Nat.add_le_add_right hpaid _) hlt
  · refine ⟨⟨i, hcursor.trans hi⟩, ?_⟩
    rw [hheld, hcursor]
    exact hpaid

/-! ## Whole runs -/

abbrev Reaches : Loop → Loop → Prop := Relation.ReflTransGen Next

theorem Reaches.inside {b : Bytes} {p q : Loop} (h : p.Reaches q) (hp : Inside b p) :
    Inside b q := by
  induction h with
  | refl => exact hp
  | tail _ hnext ih => exact ih.next hnext

theorem exists_last_round (p : Loop) : ∃ q, p.Reaches q ∧ q.round = .inr p.answer := by
  rcases hround : p.round with q | r
  · have hnext := (next_iff_round p q).mpr hround
    obtain ⟨last, hreach, hlast⟩ := exists_last_round q
    exact ⟨last, .head hnext hreach, by rw [answer_of_next hnext, hlast]⟩
  · exact ⟨p, .refl, by rw [answer_of_round hround, hround]⟩
termination_by p.maxRounds
decreasing_by exact maxRounds_lt_of_next hnext

theorem eq_handing_of_round {p : Loop} {t : Ty} {c : Cursor} (h : p.round = .inr (.ok (t, c))) :
    p = .handing t [] c := by
  unfold round at h
  split at h
  · split at h <;> cases h
  · cases h
    rfl
  · cases h
  · cases h

theorem reaches_of_answer_ok {p : Loop} {t : Ty} {c : Cursor} (h : p.answer = .ok (t, c)) :
    p.Reaches (.handing t [] c) := by
  obtain ⟨q, hreach, hround⟩ := exists_last_round p
  rw [h] at hround
  rwa [eq_handing_of_round hround] at hreach

/-! ## Slices -/

/-- The slices of the input that the next round takes. `Script.node` is the script of the reader of
a node. -/
def slices : Loop → List Slice
  | .reading _ c => Script.node.slices c
  | .handing _ _ _ => []

theorem exists_consecutive_slices (p : Loop) :
    ∃ k, Consecutive p.cursor.pos p.slices k ∧ k ≤ p.cursor.total ∧
      ∀ q, Next p q → q.cursor.pos = k := by
  cases p with
  | reading stack c =>
    obtain ⟨k, hslices, hk, hend⟩ := Script.node.exists_consecutive_slices c
    rw [Script.run_node] at hend
    refine ⟨k, hslices, hk, ?_⟩
    intro q h
    cases h with
    | leaf hnode => exact hend _ _ hnode
    | branch hnode => exact hend _ _ hnode
  | handing t stack c =>
    refine ⟨c.pos, rfl, Nat.le_add_right _ _, ?_⟩
    intro q h
    cases h with
    | complete => rfl
    | wait => rfl

end Loop

end Wire

namespace Ty

open Wire

theorem size_le_of_decodePrefix {b : Bytes} {t : Ty} {n : Nat} (h : decodePrefix b = .ok (t, n)) :
    9 * t.size ≤ n ∧ n ≤ b.length := by
  have hanswer : ∃ c : Cursor, (Loop.start b).answer = .ok (t, c) ∧ c.pos = n := by
    unfold decodePrefix at h
    rcases hread : readType [] ⟨0, b⟩ with e | ⟨u, c⟩
    · rw [hread] at h
      cases h
    · rw [hread] at h
      cases h
      exact ⟨c, hread, rfl⟩
  obtain ⟨c, hc, rfl⟩ := hanswer
  -- The loops stop with the type in hand and nothing on the stack.
  have hinside := (Loop.reaches_of_answer_ok hc).inside (Loop.inside_start b)
  exact ⟨hinside.held, hinside.pos_le⟩

/-- Whatever counts the input announces, there are at most two rounds for every nine bytes, and one
to find the end. In every round the cursor is inside the input, the nodes that are held have taken
nine bytes each, and the slices that are taken lie behind one another and inside the input. A type
that is read has at most one node for every nine bytes. -/
theorem decodePrefix_within_input (b : Bytes) :
    (∀ ps, (Loop.start b :: ps).IsChain Loop.Next → ps.length ≤ 2 * (b.length / 9)) ∧
    (Loop.start b).answerWithin (2 * (b.length / 9) + 1) = some (readType [] ⟨0, b⟩) ∧
    (∀ p, (Loop.start b).Reaches p →
      p.cursor.pos ≤ b.length ∧ 9 * p.held ≤ p.cursor.pos ∧ (∀ s ∈ p.slices, s.stop ≤ b.length) ∧
      ∀ q, Loop.Next p q → Consecutive p.cursor.pos p.slices q.cursor.pos) ∧
    ∀ t n, decodePrefix b = .ok (t, n) → 9 * t.size ≤ n ∧ n ≤ b.length := by
  refine ⟨fun ps h => Nat.le_of_lt_succ (Loop.length_lt_maxRounds h),
    Loop.answerWithin_eq (Nat.le_refl _), fun p hreach => ?_, fun t n => size_le_of_decodePrefix⟩
  have hinside := hreach.inside (Loop.inside_start b)
  obtain ⟨k, hslices, hk, hend⟩ := p.exists_consecutive_slices
  rw [hinside.total_eq] at hk
  refine ⟨hinside.pos_le, hinside.held,
    fun s hs => Nat.le_trans (hslices.stop_le hs) hk, fun q hq => ?_⟩
  rw [hend q hq]
  exact hslices

theorem decodePrefix_within_input_many :
    let many : Bytes := [1, 0, 0, 0, 0, 255, 255, 255, 255]
    let p : Loop := .reading [⟨.var 0, [], 4294967294⟩] ⟨9, []⟩
    let b : Bytes := [1, 7, 0, 0, 0, 1, 0, 0, 0, 2, 3, 0, 0, 0, 0, 0, 0, 0, 170]
    let t : Ty := .app (.var 7) [.app (.skolem 3) []]
    [Loop.start many, p].IsChain Loop.Next ∧ [p].length ≤ 2 * (many.length / 9) ∧
      (Loop.start many).answerWithin 3 = some (.error (.endOfInput 9)) ∧
      (Loop.start many).Reaches p ∧ p.cursor.pos ≤ many.length ∧ 9 * p.held ≤ p.cursor.pos ∧
      decodePrefix b = .ok (t, 18) ∧ 9 * t.size ≤ 18 ∧ 18 ≤ b.length := by
  -- The first node of `many` announces more arguments than any input has.
  intro many p b t
  have hnext : Loop.Next (Loop.start many) p := .branch rfl
  have hread : readType [] ⟨0, many⟩ = .error (.endOfInput 9) := by
    rw [readType_of_branch rfl, readType_of_error rfl]
    rfl
  have hdecode : decodePrefix b = .ok (t, 18) := decodePrefix_applied_var [170]
  obtain ⟨hchains, hanswer, hstates, -⟩ := decodePrefix_within_input many
  obtain ⟨hpos, hheld, -⟩ := hstates p (.single hnext)
  have hchain : [Loop.start many, p].IsChain Loop.Next := by simpa using hnext
  have hrounds : 2 * (many.length / 9) + 1 = 3 := by decide
  rw [hread, hrounds] at hanswer
  exact ⟨hchain, hchains [p] hchain, hanswer, .single hnext, hpos, hheld, hdecode,
    (decodePrefix_within_input b).2.2.2 t 18 hdecode⟩

end Ty

end Prenex
