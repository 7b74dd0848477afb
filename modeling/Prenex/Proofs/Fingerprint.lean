import Mathlib.Data.List.Nodup
import Prenex.Constructor
import Prenex.Proofs.Bytes

/-!
# What a fingerprint notices

The hash can be undone, one word at a time: the multiplier is odd, and rotating and xor lose
nothing. So two lists of words with a difference in one place only never have the same hash,
whatever comes behind it. A name is fed as the lengths of its parts and their chunks of eight bytes.
If the lengths are the same and one chunk is different, both halves of the fingerprint are
different. Two different chunks may make up for each other.
-/

namespace Prenex

theorem utf8_injective : Function.Injective utf8 := by
  intro s t h
  have hs := (ofUtf8?_eq_some_iff (utf8 s) s).mpr rfl
  rw [h, (ofUtf8?_eq_some_iff (utf8 t) t).mpr rfl] at hs
  exact (Option.some.inj hs).symm

namespace Fingerprint

/-! ## Hashing loses nothing -/

theorem toNat_rotateFive (h : UInt64) :
    (rotateFive h).toNat = 2 ^ 5 * (h.toNat % 2 ^ 59) + h.toNat / 2 ^ 59 := by
  have hlow : (h <<< 5).toNat = 2 ^ 5 * (h.toNat % 2 ^ 59) := by
    rw [UInt64.toNat_shiftLeft, Nat.shiftLeft_eq]
    simp only [UInt64.toNat_ofNat, Nat.reducePow, Nat.reduceMod]
    omega
  have hhigh : (h >>> 59).toNat = h.toNat / 2 ^ 59 := by
    rw [UInt64.toNat_shiftRight, Nat.shiftRight_eq_div_pow]
    rfl
  have hlt : h.toNat / 2 ^ 59 < 2 ^ 5 := by
    have := h.toNat_lt
    omega
  rw [rotateFive, UInt64.toNat_or, hlow, hhigh, Nat.two_pow_add_eq_or_of_lt hlt]

theorem rotateFive_injective : Function.Injective rotateFive := by
  intro g h heq
  -- The five high bits are the remainder of the rotated word, and the others its quotient.
  have hhigh : ∀ k : UInt64, k.toNat / 2 ^ 59 = (rotateFive k).toNat % 2 ^ 5 := by
    intro k
    have := k.toNat_lt
    rw [toNat_rotateFive, Nat.mul_add_mod, Nat.mod_eq_of_lt (by omega)]
  have hlow : ∀ k : UInt64, k.toNat % 2 ^ 59 = (rotateFive k).toNat / 2 ^ 5 := by
    intro k
    have := k.toNat_lt
    rw [toNat_rotateFive, Nat.mul_add_div (by decide), Nat.div_eq_of_lt (by omega), Nat.add_zero]
  apply UInt64.toNat_inj.mp
  rw [← Nat.div_add_mod g.toNat (2 ^ 59), ← Nat.div_add_mod h.toNat (2 ^ 59), hhigh, hlow,
    hhigh, hlow, heq]

theorem multiplier_inverse : (0x517cc1b727220a95 : UInt64) * 0x2040003d780970bd = 1 := by decide

theorem mul_multiplier_injective : Function.Injective fun h : UInt64 => h * 0x517cc1b727220a95 := by
  intro g h heq
  have hback := congrArg (· * 0x2040003d780970bd) heq
  simpa only [UInt64.mul_assoc, multiplier_inverse, UInt64.mul_one] using hback

theorem mix_word_injective (h : UInt64) : Function.Injective (mix h) := by
  intro w v heq
  exact (UInt64.xor_right_inj _).mp (mul_multiplier_injective heq)

theorem mix_state_injective (w : UInt64) : Function.Injective (mix · w) := by
  intro g h heq
  exact rotateFive_injective ((UInt64.xor_left_inj w).mp (mul_multiplier_injective heq))

theorem foldl_mix_injective (ws : List UInt64) : Function.Injective fun h => ws.foldl mix h := by
  induction ws with
  | nil => exact fun _ _ heq => heq
  | cons w ws ih => exact fun _ _ heq => mix_state_injective w (ih heq)

/-! ## One word -/

/-- The same words, up to one that is different. -/
def OneWordApart (ws vs : List UInt64) : Prop :=
  ∃ before w v after, w ≠ v ∧ ws = before ++ w :: after ∧ vs = before ++ v :: after

theorem OneWordApart.hashWords_ne {ws vs : List UInt64} (h : OneWordApart ws vs) :
    hashWords ws ≠ hashWords vs := by
  obtain ⟨before, w, v, after, hne, rfl, rfl⟩ := h
  unfold hashWords
  rw [List.foldl_append, List.foldl_append, List.foldl_cons, List.foldl_cons]
  intro heq
  exact hne (mix_word_injective _ (foldl_mix_injective after heq))

theorem OneWordApart.append_left {ws vs : List UInt64} (h : OneWordApart ws vs) (us : List UInt64) :
    OneWordApart (us ++ ws) (us ++ vs) := by
  obtain ⟨before, w, v, after, hne, rfl, rfl⟩ := h
  exact ⟨us ++ before, w, v, after, hne, by simp, by simp⟩

theorem OneWordApart.append_right {ws vs : List UInt64} (h : OneWordApart ws vs)
    (us : List UInt64) :
    OneWordApart (ws ++ us) (vs ++ us) := by
  obtain ⟨before, w, v, after, hne, rfl, rfl⟩ := h
  exact ⟨before, w, v, after ++ us, hne, by simp, by simp⟩

theorem oneWordApart_of_getElem? {ws vs : List UInt64} {k : Nat} {w v : UInt64}
    (hw : ws[k]? = some w) (hv : vs[k]? = some v) (hne : w ≠ v)
    (hother : ∀ j, j ≠ k → ws[j]? = vs[j]?) : OneWordApart ws vs := by
  have hsplit : ∀ {us : List UInt64} {u : UInt64}, us[k]? = some u →
      us = us.take k ++ u :: us.drop (k + 1) := by
    intro us u hu
    obtain ⟨hk, rfl⟩ := List.getElem?_eq_some_iff.mp hu
    rw [← List.drop_eq_getElem_cons hk, List.take_append_drop]
  have hbefore : vs.take k = ws.take k := by
    apply List.ext_getElem?
    intro j
    rw [List.getElem?_take, List.getElem?_take]
    split
    · rw [hother j (by omega)]
    · rfl
  have hafter : vs.drop (k + 1) = ws.drop (k + 1) := by
    apply List.ext_getElem?
    intro j
    rw [List.getElem?_drop, List.getElem?_drop, hother _ (by omega)]
  refine ⟨ws.take k, w, v, ws.drop (k + 1), hne, hsplit hw, ?_⟩
  rw [← hbefore, ← hafter]
  exact hsplit hv

/-! ## One chunk -/

/-- The bytes of the word in place `k`: eight of them, or what is left at the end. -/
def chunk (bs : Bytes) (k : Nat) : Bytes := (bs.drop (8 * k)).take 8

theorem chunk_drop (bs : Bytes) (k : Nat) : chunk (bs.drop 8) k = chunk bs (k + 1) := by
  unfold chunk
  rw [List.drop_drop]
  congr 2
  omega

theorem chunk_eq_nil {bs : Bytes} {k : Nat} (h : bs.length ≤ 8 * k) : chunk bs k = [] := by
  rw [chunk, List.drop_of_length_le h, List.take_nil]

theorem getElem?_words (bs : Bytes) (k : Nat) :
    (words bs)[k]? =
      if 8 * k < bs.length then some (UInt64.ofNat (ofLittleEndian (chunk bs k))) else none := by
  fun_induction words bs generalizing k with
  | case1 => simp
  | case2 b bs ih =>
    cases k with
    | zero => simp [chunk]
    | succ k =>
      have hrest : bs.drop 7 = (b :: bs).drop 8 := rfl
      rw [List.getElem?_cons_succ, ih, hrest, chunk_drop]
      congr 1
      simp only [List.length_drop, List.length_cons, eq_iff_iff]
      omega

theorem words_congr {bs cs : Bytes} (hlen : bs.length = cs.length)
    (h : ∀ k, chunk bs k = chunk cs k) :
    words bs = words cs := by
  apply List.ext_getElem?
  intro k
  rw [getElem?_words, getElem?_words, hlen, h]

theorem ofLittleEndian_word_inj {bs cs : Bytes} (hlen : bs.length = cs.length) (hle : bs.length ≤ 8)
    (h : UInt64.ofNat (ofLittleEndian bs) = UInt64.ofNat (ofLittleEndian cs)) : bs = cs := by
  have hlt : ∀ ds : Bytes, ds.length ≤ 8 → ofLittleEndian ds < 2 ^ 64 := by
    intro ds hds
    calc ofLittleEndian ds < 256 ^ ds.length := ofLittleEndian_lt ds
      _ ≤ 256 ^ 8 := Nat.pow_le_pow_right (by decide) hds
  have hnat := congrArg UInt64.toNat h
  rw [UInt64.toNat_ofNat_of_lt' (hlt bs hle), UInt64.toNat_ofNat_of_lt' (hlt cs (hlen ▸ hle))]
    at hnat
  rw [← littleEndian_ofLittleEndian bs, ← littleEndian_ofLittleEndian cs, hlen, hnat]

theorem oneWordApart_words {bs cs : Bytes} (hlen : bs.length = cs.length) {k : Nat}
    (hk : chunk bs k ≠ chunk cs k) (hother : ∀ j, j ≠ k → chunk bs j = chunk cs j) :
    OneWordApart (words bs) (words cs) := by
  have hchunk : (chunk bs k).length = (chunk cs k).length := by
    simp [chunk, hlen]
  have hinside : 8 * k < bs.length := by
    by_contra hout
    apply hk
    rw [chunk_eq_nil (by omega), chunk_eq_nil (by omega)]
  have hword : UInt64.ofNat (ofLittleEndian (chunk bs k)) ≠
      UInt64.ofNat (ofLittleEndian (chunk cs k)) :=
    fun heq => hk (ofLittleEndian_word_inj hchunk (List.length_take_le 8 _) heq)
  apply oneWordApart_of_getElem? (k := k) _ _ hword
  · intro j hj
    rw [getElem?_words, getElem?_words, hlen, hother j hj]
  · rw [getElem?_words, if_pos hinside]
  · rw [getElem?_words, if_pos (hlen ▸ hinside)]

end Fingerprint

namespace QualifiedName

/-! ## One chunk of a name -/

inductive Part where
  | package
  | module
  | name
deriving DecidableEq

def part (q : QualifiedName) : Part → String
  | .package => q.package
  | .module => q.module
  | .name => q.name

def chunk (q : QualifiedName) (place : Part × Nat) : Bytes :=
  Fingerprint.chunk (utf8 (q.part place.1)) place.2

/-- The parts have the same lengths, and there is one place with different chunks. -/
structure OneChunkApart (q r : QualifiedName) : Prop where
  length_eq : ∀ p, (utf8 (q.part p)).length = (utf8 (r.part p)).length
  place : ∃! place, q.chunk place ≠ r.chunk place

open Fingerprint

def partWords (q : QualifiedName) (p : Part) : List UInt64 := textWords (q.part p)

theorem hi_fingerprint (q : QualifiedName) :
    q.fingerprint.hi = hashWords ([.package, .module, .name].flatMap q.partWords) := by
  simp [fingerprint, ofName, partWords, part]

theorem lo_fingerprint (q : QualifiedName) :
    q.fingerprint.lo = hashWords (lowSeed :: [.name, .module, .package].flatMap q.partWords) := by
  simp [fingerprint, ofName, partWords, part]

theorem oneWordApart_flatMap {q r : QualifiedName} {p : Part} {ps : List Part} (hp : p ∈ ps)
    (hps : ps.Nodup) (hapart : OneWordApart (q.partWords p) (r.partWords p))
    (hother : ∀ o, o ≠ p → q.partWords o = r.partWords o) :
    OneWordApart (ps.flatMap q.partWords) (ps.flatMap r.partWords) := by
  induction ps with
  | nil => simp at hp
  | cons o ps ih =>
    obtain ⟨ho, hps⟩ := List.nodup_cons.mp hps
    rw [List.flatMap_cons, List.flatMap_cons]
    rcases List.mem_cons.mp hp with rfl | hp
    · have hrest : ps.flatMap q.partWords = ps.flatMap r.partWords := by
        apply List.flatMap_congr
        intro o' ho'
        exact hother o' fun heq => ho (heq ▸ ho')
      rw [hrest]
      exact hapart.append_right _
    · rw [hother o fun heq => ho (heq ▸ hp)]
      exact (ih hp hps).append_left _

theorem OneChunkApart.exists_part {q r : QualifiedName} (h : OneChunkApart q r) :
    ∃ p, OneWordApart (q.partWords p) (r.partWords p) ∧
      ∀ o, o ≠ p → q.partWords o = r.partWords o := by
  obtain ⟨⟨p, k⟩, hne, hunique⟩ := h.place
  have hother : ∀ place, place ≠ (p, k) → q.chunk place = r.chunk place := by
    intro place hplace
    by_contra hdiff
    exact hplace (hunique place hdiff)
  refine ⟨p, ?_, fun o ho => ?_⟩
  · have hwords := oneWordApart_words (h.length_eq p) hne fun j hj => hother (p, j) (by simp [hj])
    unfold partWords textWords
    rw [h.length_eq p]
    exact hwords.append_left [_]
  · have hwords := words_congr (h.length_eq o) fun k => hother (o, k) (by simp [ho])
    unfold partWords textWords
    rw [h.length_eq o, hwords]

theorem OneChunkApart.fingerprint_ne {q r : QualifiedName} (h : OneChunkApart q r) :
    q.fingerprint.hi ≠ r.fingerprint.hi ∧ q.fingerprint.lo ≠ r.fingerprint.lo := by
  obtain ⟨p, hapart, hother⟩ := h.exists_part
  constructor
  · rw [hi_fingerprint, hi_fingerprint]
    exact (oneWordApart_flatMap (by cases p <;> simp) (by decide) hapart hother).hashWords_ne
  · rw [lo_fingerprint, lo_fingerprint]
    have hparts : OneWordApart ([.name, .module, .package].flatMap q.partWords)
        ([.name, .module, .package].flatMap r.partWords) :=
      oneWordApart_flatMap (by cases p <;> simp) (by decide) hapart hother
    exact (hparts.append_left [lowSeed]).hashWords_ne

theorem oneChunkApart_of_short (package module : String) {name name' : String}
    (hlen : (utf8 name).length = (utf8 name').length) (hshort : (utf8 name).length ≤ 8)
    (hne : name ≠ name') :
    OneChunkApart ⟨package, module, name⟩ ⟨package, module, name'⟩ where
  length_eq p := by
    cases p with
    | package => rfl
    | module => rfl
    | name => exact hlen
  place := by
    refine ⟨(.name, 0), ?_, ?_⟩
    · show ((utf8 name).drop 0).take 8 ≠ ((utf8 name').drop 0).take 8
      rw [List.drop_zero, List.drop_zero, List.take_of_length_le hshort,
        List.take_of_length_le (hlen ▸ hshort)]
      exact fun heq => hne (utf8_injective heq)
    · rintro ⟨p, k⟩ hdiff
      cases p with
      | package => exact absurd rfl hdiff
      | module => exact absurd rfl hdiff
      | name =>
        cases k with
        | zero => rfl
        | succ k =>
          -- There is nothing behind the first eight bytes.
          have hnil : Fingerprint.chunk (utf8 name) (k + 1) =
              Fingerprint.chunk (utf8 name') (k + 1) := by
            rw [chunk_eq_nil (by omega), chunk_eq_nil (by omega)]
          exact absurd hnil hdiff

/-- A change in one chunk of one part changes both halves of the fingerprint, so short names of the
same length in one module have different fingerprints. -/
theorem fingerprint_notices_chunk :
    (∀ q r, OneChunkApart q r →
      q.fingerprint.hi ≠ r.fingerprint.hi ∧ q.fingerprint.lo ≠ r.fingerprint.lo) ∧
    ∀ package module name name',
      (utf8 name).length = (utf8 name').length → (utf8 name).length ≤ 8 → name ≠ name' →
      Fingerprint.ofName package module name ≠ .ofName package module name' := by
  refine ⟨fun q r => OneChunkApart.fingerprint_ne,
    fun package module name name' hlen hshort hne heq => ?_⟩
  have hapart := oneChunkApart_of_short package module hlen hshort hne
  exact hapart.fingerprint_ne.1 (congrArg Fingerprint.hi heq)

theorem fingerprint_notices_chunk_at_end :
    let q : QualifiedName := ⟨"base", "Data.Maybe", "Maybe"⟩
    let r : QualifiedName := ⟨"base", "Data.Mayan", "Maybe"⟩
    OneChunkApart q r ∧ q.fingerprint.hi ≠ r.fingerprint.hi ∧ q.fingerprint.lo ≠ r.fingerprint.lo ∧
      Fingerprint.ofName "base" "Data.Maybe" "Just" ≠ .ofName "base" "Data.Maybe" "Item" := by
  -- The second chunk of the module has two bytes.
  intro q r
  have hapart : OneChunkApart q r := by
    constructor
    · intro p
      cases p <;> decide
    · refine ⟨(.module, 1), by decide, ?_⟩
      rintro ⟨p, k⟩ hdiff
      cases p with
      | package => exact absurd rfl hdiff
      | name => exact absurd rfl hdiff
      | module =>
        rcases k with _ | _ | k
        · exact absurd (by decide) hdiff
        · rfl
        · have hlen : ∀ o ∈ [q, r], (utf8 (o.part .module)).length = 10 := by decide
          have hnil : q.chunk (.module, k + 2) = r.chunk (.module, k + 2) := by
            rw [chunk, chunk, chunk_eq_nil, chunk_eq_nil]
            · rw [hlen r (by simp)]
              omega
            · rw [hlen q (by simp)]
              omega
          exact absurd hnil hdiff
  obtain ⟨hchunk, hshort⟩ := fingerprint_notices_chunk
  obtain ⟨hhi, hlo⟩ := hchunk q r hapart
  exact ⟨hapart, hhi, hlo, hshort _ _ _ _ (by decide) (by decide) (by decide)⟩

/-- Two chunks that change can make up for each other. -/
example :
    Fingerprint.ofName "pkg" "Mod" "9naHVck0ab" = .ofName "pkg" "Mod" "9naHVckpib" := by
  decide +kernel

end QualifiedName

end Prenex
