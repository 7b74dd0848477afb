import Prenex.Proofs.Wire.Grammar
import Prenex.Wire.Decode

/-!
# The stack and the descent

The reader with a stack of unfinished nodes gives what the descent gives: the same type and place,
or the same fault. A stack stands for what is left to do once the descent has brought the awaited
type.
-/

namespace Prenex

namespace Wire

open Grammar (Parser Offset)

variable {b : Bytes} {α β : Type}

/-! ## Readers and parsers -/

def Cursor.at (b : Bytes) (i : Offset b) : Cursor := ⟨i, b.drop i⟩

/-- The reader does to the rest of the input what the parser does to the place. -/
def Follows (r : Reader α) (p : Parser b α) : Prop :=
  ∀ i, r (.at b i) = (p i).map (Prod.map id (.at b))

theorem follows_pure (a : α) : Follows (b := b) (pure a) (pure a) := fun _ => rfl

theorem follows_fault (e : Fault) :
    Follows (b := b) (α := α) (Reader.fault e) (throw e) := fun _ => rfl

theorem follows_bind {r : Reader α} {f : α → Reader β} {p : Parser b α} {g : α → Parser b β}
    (hr : Follows r p) (hf : ∀ a, Follows (f a) (g a)) : Follows (r >>= f) (p >>= g) := by
  intro i
  simp only [bind, StateT.bind, Except.bind, hr i]
  rcases p i with e | ⟨a, j⟩
  · rfl
  · exact hf a j

theorem follows_position {f : Nat → Reader α} {g : Offset b → Parser b α}
    (h : ∀ i : Offset b, Follows (f i) (g i)) :
    Follows (Reader.position >>= f) (get >>= g) := fun i => h i i

theorem follows_take (n : Nat) : Follows (b := b) (Reader.take n) (Grammar.bytes n) := by
  intro i
  unfold Reader.take Cursor.at
  by_cases h : i + n ≤ b.length
  · simp only [Grammar.bytes_of_le h, Grammar.length_take_drop h, if_true, List.drop_drop]
    rfl
  · have hlen : ¬ ((b.drop i).take n).length = n := by
      rw [List.length_take, List.length_drop]
      omega
    have hend : i.val + (b.drop i).length = b.length := by
      rw [List.length_drop]
      omega
    simp only [Grammar.bytes_of_lt (Nat.lt_of_not_le h), hlen, if_false, hend]
    rfl

theorem follows_number (width : Nat) :
    Follows (b := b) (Reader.number width) (Grammar.uint width) :=
  follows_bind (follows_take width) fun _ => follows_pure _

theorem follows_text : Follows (b := b) Reader.text Grammar.str := by
  refine follows_bind (follows_number 4) fun len => follows_position fun start => ?_
  refine follows_bind (follows_take len) fun bs => ?_
  cases ofUtf8? bs with
  | none => exact follows_fault _
  | some s => exact follows_pure s

theorem follows_fingerprint :
    Follows (b := b) (do return Fingerprint.ofBytes (← Reader.take 16)) Grammar.fingerprint := by
  have hhalves : Grammar.fingerprint =
      (do return Fingerprint.ofBytes (← Grammar.bytes 16) : Parser b _) := by
    funext i
    simp only [Grammar.fingerprint, Grammar.uint, bind_assoc, pure_bind]
    simp only [bind, StateT.bind, Except.bind]
    by_cases hhi : i + 8 ≤ b.length
    · rw [Grammar.bytes_of_le hhi]
      dsimp only
      by_cases hlo : i.val + 8 + 8 ≤ b.length
      · rw [Grammar.bytes_of_le hlo, Grammar.bytes_of_le (by omega)]
        simp only [Fingerprint.ofBytes, List.take_take, List.drop_take, List.drop_drop]
        rfl
      · rw [Grammar.bytes_of_lt (by simpa using hlo), Grammar.bytes_of_lt (by omega)]
    · rw [Grammar.bytes_of_lt (by omega), Grammar.bytes_of_lt (by omega)]
  rw [hhalves]
  exact follows_bind (follows_take 16) fun _ => follows_pure _

theorem follows_qualifiedName :
    Follows (b := b) (do return ⟨← Reader.text, ← Reader.text, ← Reader.text⟩)
      Grammar.qualifiedName :=
  follows_bind follows_text fun _ =>
    follows_bind follows_text fun _ => follows_bind follows_text fun _ => follows_pure _

theorem follows_constructor : Follows (b := b) Reader.constructor Grammar.constructor := by
  have hsplit : Reader.constructor = (do
      let encoded ← (do return Fingerprint.ofBytes (← Reader.take 16))
      let q ← (do return QualifiedName.mk (← Reader.text) (← Reader.text) (← Reader.text))
      if q.fingerprint = encoded then return .ofName q
      else Reader.fault (.fingerprintMismatch encoded q.fingerprint)) := by
    simp only [bind_assoc, pure_bind]
    rfl
  rw [hsplit]
  refine follows_bind follows_fingerprint fun encoded =>
    follows_bind follows_qualifiedName fun q => ?_
  by_cases h : q.fingerprint = encoded
  · rw [if_pos h, if_pos h]
    exact follows_pure _
  · rw [if_neg h, if_neg h]
    exact follows_fault _

theorem follows_index : Follows (b := b) Reader.index Grammar.index :=
  follows_bind (follows_number 4) fun _ => follows_pure _

theorem follows_byte :
    Follows (b := b) (do return UInt8.ofNat (← Reader.number 1)) Grammar.byte := by
  have hone : Grammar.byte = (do return UInt8.ofNat (← Grammar.uint 1) : Parser b UInt8) := by
    funext i
    simp only [Grammar.uint, bind_assoc, pure_bind]
    simp only [bind, StateT.bind, Except.bind]
    unfold Grammar.byte
    by_cases h : i.val < b.length
    · rw [dif_pos h, Grammar.bytes_of_le h, List.drop_eq_getElem_cons h, List.take_succ_cons]
      simp only [List.take_zero, ofLittleEndian, Nat.mul_zero, Nat.add_zero, UInt8.ofNat_toNat]
      rfl
    · rw [dif_neg h, Grammar.bytes_of_lt (by omega)]
  rw [hone]
  exact follows_bind (follows_number 1) fun _ => follows_pure _

theorem follows_head : Follows (b := b) Reader.head Grammar.head := by
  have hsplit : Reader.head = (do
      let offset ← Reader.position
      let tag ← (do return UInt8.ofNat (← Reader.number 1))
      if tag = conTag then return .con (← Reader.constructor)
      else if tag = varTag then return .var (← Reader.index)
      else if tag = skolemTag then return .skolem (← Reader.index)
      else Reader.fault (.invalidTag tag offset)) := by
    simp only [bind_assoc, pure_bind]
    rfl
  rw [hsplit]
  refine follows_position fun offset => follows_bind follows_byte fun tag => ?_
  by_cases hcon : tag = conTag
  · rw [if_pos hcon, hcon]
    exact follows_bind follows_constructor fun _ => follows_pure _
  by_cases hvar : tag = varTag
  · rw [if_neg hcon, if_pos hvar, hvar]
    exact follows_bind follows_index fun _ => follows_pure _
  by_cases hskolem : tag = skolemTag
  · rw [if_neg hcon, if_neg hvar, if_pos hskolem, hskolem]
    exact follows_bind follows_index fun _ => follows_pure _
  · rw [if_neg hcon, if_neg hvar, if_neg hskolem, Grammar.payload]
    · exact follows_fault _
    · exact hcon
    · exact hvar
    · exact hskolem

theorem follows_node : Follows (b := b) Reader.node Grammar.header :=
  follows_bind follows_head fun _ => follows_bind (follows_number 4) fun _ => follows_pure _

/-! ## What a stack waits for -/

/-- Hands a finished type to the stack, and goes on with what it waits for then. -/
def resume (stack : List Frame) (t : Ty) (c : Cursor) : Except Fault (Ty × Cursor) :=
  match close t stack with
  | .inl t => .ok (t, c)
  | .inr stack => readType stack c

theorem resume_last (h : Head) (args : List Ty) (stack : List Frame) (t : Ty) (c : Cursor) :
    resume (⟨h, args, 0⟩ :: stack) t c = resume stack (.app h (args.reverse ++ [t])) c := by
  simp [resume, close]

theorem readType_of_error {stack : List Frame} {c : Cursor} {e : Fault}
    (hnode : Reader.node c = .error e) :
    readType stack c = .error e := by
  rw [readType]
  split <;> simp_all

theorem readType_of_leaf {stack : List Frame} {c rest : Cursor} {h : Head}
    (hnode : Reader.node c = .ok ((h, 0), rest)) :
    readType stack c = resume stack (.app h []) rest := by
  rw [readType]
  split <;> simp_all
  rfl

theorem readType_of_branch {stack : List Frame} {c rest : Cursor} {h : Head} {n : Nat}
    (hnode : Reader.node c = .ok ((h, n + 1), rest)) :
    readType stack c = readType (⟨h, [], n⟩ :: stack) rest := by
  rw [readType]
  split <;> simp_all

/-! ## The simulation -/

/-- From `i` on, the stack gets what the descent reads. -/
def Simulated (i : Offset b) : Prop :=
  ∀ stack, readType stack (.at b i) = Grammar.node i >>= fun r => resume stack r.1 (.at b r.2)

/-- A frame on top waits for as many nodes as are still to come. -/
theorem readType_frame {i : Offset b} (hsim : ∀ j, i ≤ j → Simulated j) (h : Head)
    (args : List Ty) (n : Nat) (stack : List Frame) :
    readType (⟨h, args, n⟩ :: stack) (.at b i) =
      Grammar.times (n + 1) Grammar.node i >>=
        fun r => resume stack (.app h (args.reverse ++ r.1)) (.at b r.2) := by
  induction n generalizing i args with
  | zero =>
    rw [hsim i (Fin.le_refl i), Grammar.times_succ, bind_assoc]
    simp only [resume_last]
    rfl
  | succ n ih =>
    rw [hsim i (Fin.le_refl i), Grammar.times_succ, bind_assoc]
    rcases hnode : Grammar.node i with e | ⟨t, j⟩
    · rfl
    · have hij := Fin.le_of_lt (Grammar.lt_of_node hnode)
      have hrest := ih (fun k hk => hsim k (Fin.le_trans hij hk)) (t :: args)
      show readType (⟨h, t :: args, n⟩ :: stack) (.at b j) =
          Grammar.times (n + 1) Grammar.node j >>= _ >>= _
      rw [hrest, bind_assoc]
      simp only [List.reverse_cons, List.append_assoc, List.singleton_append]
      rfl

theorem simulated (i : Offset b) : Simulated i := by
  induction i using Grammar.inductionOnOffset with
  | h i ih =>
    intro stack
    have hfollows := follows_node i
    rw [Grammar.node_apply, bind_assoc]
    rcases hheader : Grammar.header i with e | ⟨⟨h, n⟩, j⟩
    · rw [hheader] at hfollows
      exact readType_of_error hfollows
    · rw [hheader] at hfollows
      show _ = Grammar.times n Grammar.node j >>= _ >>= _
      cases n with
      | zero => exact readType_of_leaf hfollows
      | succ n =>
        have hij := Grammar.lt_of_header hheader
        have hframe := readType_frame (fun k hk => ih k (Fin.lt_of_lt_of_le hij hk)) h [] n stack
        rw [readType_of_branch hfollows, bind_assoc]
        exact hframe

theorem follows_readType : Follows (b := b) (readType []) Grammar.node := by
  intro i
  rw [simulated i []]
  rcases Grammar.node i with e | ⟨t, k⟩
  · rfl
  · rfl

theorem readType_start (b : Bytes) :
    readType [] ⟨0, b⟩ = (Grammar.node (0 : Offset b)).map (Prod.map id (.at b)) :=
  follows_readType (0 : Offset b)

end Wire

/-- The loop with a stack reads what the recursive reader of the grammar reads, and fails as it
fails. -/
theorem Ty.decodePrefix_eq_parse (b : Bytes) : decodePrefix b = parse b := by
  unfold decodePrefix parse
  rw [Wire.readType_start]
  rcases Wire.Grammar.node (0 : Wire.Grammar.Offset b) with e | ⟨t, k⟩
  · rfl
  · rfl

end Prenex
