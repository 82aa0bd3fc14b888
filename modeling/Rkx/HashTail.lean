import Rkx.File
import Rkx.Lib.Mixing
import Rkx.Xxh64

/-!
# What the hash of a file tells apart

The bytes behind the last whole stripe change the hash one after the other, and no step loses anything of it.

* `mixPiece_injective`, `mixPiece_ne`: one piece of these bytes;
* `OnePiece`, `tailPieces_set`: tails that differ in one piece;
* `changed_byte_changes_uuid`: files that differ in one byte.
-/

set_option autoImplicit false

namespace Rkx

open Function Lib.Absorb Lib.Bytes Lib.Mixing

/-! ## Steps that can be undone -/

theorem rotl64_toBitVec {r : UInt64} (hpos : 0 < r.toNat) (hr : r.toNat < 64) (x : UInt64) :
    (rotl64 x r).toBitVec = x.toBitVec.rotateLeft r.toNat := by
  have hle : r ≤ 64 := UInt64.le_iff_toNat_le.2 (Nat.le_of_lt hr)
  have hsub : (64 - r).toNat = 64 - r.toNat := UInt64.toNat_sub_of_le _ _ hle
  have hleft : (r.toBitVec % 64).toNat = r.toNat := by
    rw [BitVec.toNat_umod]
    exact Nat.mod_eq_of_lt hr
  have hright : ((64 - r).toBitVec % 64).toNat = 64 - r.toNat := by
    rw [BitVec.toNat_umod]
    exact (Nat.mod_eq_of_lt (by change (64 - r).toNat < 64; omega)).trans hsub
  unfold rotl64
  rw [UInt64.toBitVec_or, UInt64.toBitVec_shiftLeft, UInt64.toBitVec_shiftRight, BitVec.rotateLeft_def,
    Nat.mod_eq_of_lt hr, BitVec.shiftLeft_eq', BitVec.ushiftRight_eq', hleft, hright]

theorem rotl64_injective {r : UInt64} (hpos : 0 < r.toNat) (hr : r.toNat < 64) : Injective (rotl64 · r) := by
  intro x y h
  apply UInt64.toBitVec_inj.1
  apply rotateLeft_injective hr
  simp only
  rw [← rotl64_toBitVec hpos hr, ← rotl64_toBitVec hpos hr]
  exact congrArg UInt64.toBitVec h

theorem shift64_injective {k : UInt64} (hpos : 0 < k.toNat) (hk : k.toNat < 64) :
    Injective fun x : UInt64 => x ^^^ (x >>> k) := by
  have hshift : ∀ x : UInt64, (x ^^^ (x >>> k)).toBitVec = x.toBitVec ^^^ (x.toBitVec >>> k.toNat) := by
    intro x
    rw [UInt64.toBitVec_xor, UInt64.toBitVec_shiftRight, BitVec.ushiftRight_eq', BitVec.toNat_umod,
      show k.toBitVec.toNat % (64 : BitVec 64).toNat = k.toNat from Nat.mod_eq_of_lt hk]
  intro x y h
  apply UInt64.toBitVec_inj.1
  apply xorShift_injective hpos
  simp only
  rw [← hshift, ← hshift]
  exact congrArg UInt64.toBitVec h

/-- A factor that has an inverse. -/
theorem mul_injective {p q : UInt64} (h : p * q = 1) : Injective (· * p) := by
  intro x y hxy
  calc x = x * p * q := by rw [UInt64.mul_assoc, h, UInt64.mul_one]
    _ = y * p * q := congrArg (· * q) hxy
    _ = y := by rw [UInt64.mul_assoc, h, UInt64.mul_one]

theorem prime1_injective : Injective (· * XXH_PRIME64_1) := mul_injective (q := 0x887493432badb37) rfl

theorem prime2_injective : Injective (· * XXH_PRIME64_2) := mul_injective (q := 0xba79078168d4baf) rfl

theorem prime3_injective : Injective (· * XXH_PRIME64_3) := mul_injective (q := 0xe9e9f4c41d6df849) rfl

theorem prime5_injective : Injective (· * XXH_PRIME64_5) := mul_injective (q := 0xc592c09fdfba7f0d) rfl

theorem xxh64Avalanche_injective : Injective xxh64Avalanche := by
  intro x y h
  unfold xxh64Avalanche at h
  have h₁ := prime3_injective (shift64_injective (k := 32) (by decide) (by decide) h)
  have h₂ := prime2_injective (shift64_injective (k := 29) (by decide) (by decide) h₁)
  exact shift64_injective (k := 33) (by decide) (by decide) h₂

theorem xxh64Round_injective (acc : UInt64) : Injective (xxh64Round acc) := by
  intro x y h
  have hsum := rotl64_injective (r := 31) (by decide) (by decide) (prime1_injective h)
  exact prime2_injective ((UInt64.add_right_inj _).1 hsum)

/-! ## One piece -/

/-- The bytes are read back from the word. -/
theorem word_injective {p q : List UInt8} (hp : p.length ≤ 8) (hlen : q.length = p.length)
    (h : UInt64.ofNat (ofLE p) = UInt64.ofNat (ofLE q)) : p = q := by
  have hmod : ofLE p % 2 ^ 64 = ofLE q % 2 ^ 64 := by
    rw [← UInt64.toNat_ofNat', ← UInt64.toNat_ofNat', h]
  have hdvd : 256 ^ p.length ∣ 2 ^ 64 := Nat.pow_dvd_pow 256 hp
  have hlow : ofLE p % 256 ^ p.length = ofLE q % 256 ^ p.length := by
    rw [← Nat.mod_mod_of_dvd _ hdvd, hmod, Nat.mod_mod_of_dvd _ hdvd]
  rw [← toLE_ofLE p, ← toLE_mod, hlow, toLE_mod, ← hlen, toLE_ofLE]

theorem readLE64_injective {p q : List UInt8} (hp : p.length = 8) (hq : q.length = 8)
    (h : readLE64 p = readLE64 q) : p = q := by
  rw [readLE64, readLE64, List.take_of_length_le (Nat.le_of_eq hp), List.take_of_length_le (Nat.le_of_eq hq)] at h
  exact word_injective (Nat.le_of_eq hp) (hq.trans hp.symm) h

theorem readLE32_injective {p q : List UInt8} (hp : p.length = 4) (hq : q.length = 4)
    (h : readLE32 p = readLE32 q) : p = q := by
  rw [readLE32, readLE32, List.take_of_length_le (Nat.le_of_eq hp), List.take_of_length_le (Nat.le_of_eq hq)] at h
  exact word_injective (by omega) (hq.trans hp.symm) h

theorem mixWord_cancel {hash hash' : UInt64} {p q : List UInt8} (h : mixWord hash p = mixWord hash' q) :
    hash ^^^ xxh64Round 0 (readLE64 p) = hash' ^^^ xxh64Round 0 (readLE64 q) :=
  rotl64_injective (r := 27) (by decide) (by decide) (prime1_injective ((UInt64.add_left_inj _).1 h))

theorem mixHalf_cancel {hash hash' : UInt64} {p q : List UInt8} (h : mixHalf hash p = mixHalf hash' q) :
    hash ^^^ readLE32 p * XXH_PRIME64_1 = hash' ^^^ readLE32 q * XXH_PRIME64_1 :=
  rotl64_injective (r := 23) (by decide) (by decide) (prime2_injective ((UInt64.add_left_inj _).1 h))

theorem mixByte_cancel {hash hash' : UInt64} {b c : UInt8} (h : mixByte hash b = mixByte hash' c) :
    hash ^^^ b.toUInt64 * XXH_PRIME64_5 = hash' ^^^ c.toUInt64 * XXH_PRIME64_5 :=
  rotl64_injective (r := 11) (by decide) (by decide) (prime1_injective h)

theorem mixBytes_injective (p : List UInt8) : Injective fun hash => p.foldl mixByte hash := by
  induction p with
  | nil => exact injective_id
  | cons b p ih => exact fun x y h => (UInt64.xor_left_inj _).1 (mixByte_cancel (ih h))

/-- **A piece** loses nothing of the hash so far. -/
theorem mixPiece_injective (p : List UInt8) : Injective fun hash => mixPiece hash p := by
  intro x y h
  simp only at h
  unfold mixPiece at h
  split at h
  · exact (UInt64.xor_left_inj _).1 (mixWord_cancel h)
  · split at h
    · exact (UInt64.xor_left_inj _).1 (mixHalf_cancel h)
    · exact mixBytes_injective p h

/-- A word, half a word or a byte. -/
def IsPiece (p : List UInt8) : Prop := p.length = 8 ∨ p.length = 4 ∨ p.length = 1

/-- **Pieces that differ** give hashes that differ. -/
theorem mixPiece_ne {p q : List UInt8} (hp : IsPiece p) (hlen : q.length = p.length) (hne : p ≠ q) (hash : UInt64) :
    mixPiece hash p ≠ mixPiece hash q := by
  intro h
  apply hne
  obtain hword | hhalf | hbyte := hp
  · rw [mixPiece_word hword, mixPiece_word (hlen.trans hword)] at h
    have hround := (UInt64.xor_right_inj _).1 (mixWord_cancel h)
    exact readLE64_injective hword (hlen.trans hword) (xxh64Round_injective 0 hround)
  · rw [mixPiece_half hhalf, mixPiece_half (hlen.trans hhalf)] at h
    have hmul := (UInt64.xor_right_inj _).1 (mixHalf_cancel h)
    exact readLE32_injective hhalf (hlen.trans hhalf) (prime1_injective hmul)
  · obtain ⟨b, rfl⟩ := List.length_eq_one_iff.1 hbyte
    obtain ⟨c, rfl⟩ := List.length_eq_one_iff.1 (hlen.trans hbyte)
    have hmul := (UInt64.xor_right_inj _).1 (mixByte_cancel (show mixByte hash b = mixByte hash c from h))
    have hnat : b.toNat = c.toNat := by
      rw [← UInt8.toNat_toUInt64, ← UInt8.toNat_toUInt64, prime5_injective hmul]
    rw [UInt8.toNat_inj.1 hnat]

/-! ## Tails -/

/-- Lists of pieces that differ in one of them. -/
def OnePiece (ps qs : List (List UInt8)) : Prop :=
  ∃ l p q r, ps = l ++ p :: r ∧ qs = l ++ q :: r ∧ IsPiece p ∧ q.length = p.length ∧ p ≠ q

theorem OnePiece.cons {ps qs : List (List UInt8)} (h : OnePiece ps qs) (x : List UInt8) :
    OnePiece (x :: ps) (x :: qs) := by
  obtain ⟨l, p, q, r, rfl, rfl, h⟩ := h
  exact ⟨x :: l, p, q, r, rfl, rfl, h⟩

theorem onePiece_head {p q : List UInt8} (hp : IsPiece p) (hlen : q.length = p.length) (hne : p ≠ q)
    (r : List (List UInt8)) : OnePiece (p :: r) (q :: r) :=
  ⟨[], p, q, r, rfl, rfl, hp, hlen, hne⟩

theorem OnePiece.mix_ne {ps qs : List (List UInt8)} (h : OnePiece ps qs) (hash : UInt64) :
    ps.foldl mixPiece hash ≠ qs.foldl mixPiece hash := by
  obtain ⟨l, p, q, r, rfl, rfl, hp, hlen, hne⟩ := h
  exact foldl_ne mixPiece_injective (mixPiece_ne hp hlen hne) hash l r

theorem set_ne {l : List UInt8} {i : Nat} {b : UInt8} (hi : i < l.length) (hb : b ≠ l[i]) : l ≠ l.set i b := by
  intro h
  have hget : (l.set i b)[i]? = some b := List.getElem?_set_self hi
  rw [← h, List.getElem?_eq_getElem hi] at hget
  exact hb (Option.some_inj.1 hget).symm

theorem bytes_set {l : List UInt8} {i : Nat} {b : UInt8} (hi : i < l.length) (hb : b ≠ l[i]) :
    OnePiece (l.map ([·])) ((l.set i b).map ([·])) := by
  induction l generalizing i with
  | nil => exact absurd hi (Nat.not_lt_zero i)
  | cons a l ih =>
    cases i with
    | zero =>
      have hne : [a] ≠ [b] := fun h => hb (List.singleton_inj.1 h).symm
      exact onePiece_head (p := [a]) (q := [b]) (Or.inr (Or.inr rfl)) rfl hne _
    | succ i => exact (ih (Nat.lt_of_succ_lt_succ hi) hb).cons _

/-- The first `n` bytes of a list that differs in one byte: the byte is one of them, or it is behind them. -/
theorem set_split {l : List UInt8} {n i : Nat} {b : UInt8} (hn : n ≤ l.length) (hi : i < l.length) (hb : b ≠ l[i]) :
    (l.drop n = (l.set i b).drop n ∧ l.take n ≠ (l.set i b).take n) ∨
      (n ≤ i ∧ (l.set i b).take n = l.take n ∧ (l.set i b).drop n = (l.drop n).set (i - n) b) := by
  obtain hlt | hle := Nat.lt_or_ge i n
  · left
    refine ⟨by rw [List.drop_set_of_lt hlt], ?_⟩
    rw [List.take_set]
    exact set_ne (by rw [List.length_take_of_le hn]; exact hlt) (by rwa [List.getElem_take])
  · right
    refine ⟨hle, by rw [List.take_set_of_le hle], ?_⟩
    rw [List.drop_set, if_neg (Nat.not_lt.2 hle)]

/-- **A byte that differs** is in one piece. -/
theorem tailPieces_set {t : List UInt8} {i : Nat} {b : UInt8} (hi : i < t.length) (hb : b ≠ t[i]) :
    OnePiece (tailPieces t) (tailPieces (t.set i b)) := by
  induction hn : t.length using Nat.strongRecOn generalizing t i with
  | ind n ih =>
    have hset : (t.set i b).length = t.length := List.length_set
    by_cases hword : 8 ≤ t.length
    · rw [tailPieces_word hword, tailPieces_word (t := t.set i b) (by omega)]
      obtain ⟨hdrop, htake⟩ | ⟨hle, htake, hdrop⟩ := set_split hword hi hb
      · rw [← hdrop]
        exact onePiece_head (Or.inl (List.length_take_of_le hword)) (by rw [List.length_take, List.length_take, hset])
          htake _
      · have hlen := List.length_drop (i := 8) (l := t)
        rw [htake, hdrop]
        exact (ih (t.drop 8).length (by omega) (by omega) (by simpa [hle] using hb) rfl).cons _
    · by_cases hhalf : 4 ≤ t.length
      · rw [tailPieces_half hhalf (by omega), tailPieces_half (t := t.set i b) (by omega) (by omega)]
        obtain ⟨hdrop, htake⟩ | ⟨hle, htake, hdrop⟩ := set_split hhalf hi hb
        · rw [← hdrop]
          exact onePiece_head (Or.inr (Or.inl (List.length_take_of_le hhalf)))
            (by rw [List.length_take, List.length_take, hset]) htake _
        · have hlen := List.length_drop (i := 4) (l := t)
          rw [htake, hdrop]
          exact (bytes_set (by omega) (by simpa [hle] using hb)).cons _
      · rw [tailPieces_bytes (by omega), tailPieces_bytes (by omega)]
        exact bytes_set hi hb

/-! ## Files -/

/-- The bytes behind the last whole stripe. -/
theorem absorbed_tail (seed : UInt64) {a t : List UInt8} (ha : a.length % 32 = 0) (ht : t.length < 32) :
    absorbed seed (a ++ t) = ((absorbed seed a).1, t) := by
  have hrest : (absorbed seed a).2 = [] := by rw [← List.length_eq_zero_iff, length_absorbed, ha]
  have hstripes : absorbed seed a = ((absorbed seed a).1, []) := Prod.ext rfl hrest
  rw [absorbed, absorb_append, ← absorbed, hstripes]
  exact absorb_fits (r := []) (by simpa using ht)

/-- **Tails that differ in one piece** give hashes that differ. -/
theorem xxh64_pieces_ne (seed : UInt64) {a t t' : List UInt8} (ha : a.length % 32 = 0) (ht : t.length < 32)
    (hlen : t'.length = t.length) (h : OnePiece (tailPieces t) (tailPieces t')) :
    xxh64 (a ++ t) seed ≠ xxh64 (a ++ t') seed := by
  rw [xxh64_eq, xxh64_eq, absorbed_tail seed ha ht, absorbed_tail seed ha (hlen ▸ ht), hashOf, hashOf,
    List.length_append, List.length_append, hlen]
  exact fun heq => h.mix_ne _ (xxh64Avalanche_injective (Option.some_inj.1 heq))

/-- The parameter of `calculateXxhash`. -/
def hashBuffer (buffer : List UInt8) (seed : UInt64) : UInt64 := (xxh64 buffer seed).getD 0

/-- **One byte that differs** behind the last whole stripe of 32 bytes is another uuid. -/
theorem changed_byte_changes_uuid {io : HashCalls} (hopen : io.fopen = true) (halloc : io.zmalloc = true)
    (hread : io.missing = 0) {content : List UInt8} {i : Nat} (hi : i < content.length)
    (htail : content.length / 32 * 32 ≤ i) {b : UInt8} (hb : b ≠ content[i]) :
    calculateXxhash hashBuffer io (content.set i b) ≠ calculateXxhash hashBuffer io content := by
  have hhash : ∀ c : List UInt8, calculateXxhash hashBuffer io c = .ok ((xxh64 c 0).getD 0) := by
    intro c
    simp [calculateXxhash, hopen, halloc, hread, zmalloc, hashBuffer]
  have hmod := Nat.div_add_mod' content.length 32
  have hlt := Nat.mod_lt content.length (show 0 < 32 by decide)
  obtain ⟨hdrop, htake⟩ | ⟨-, htake, hdrop⟩ := set_split (n := content.length / 32 * 32) (by omega) hi hb
  · exact absurd (by rw [List.take_set_of_le htail]) htake
  · have hstripes : (content.take (content.length / 32 * 32)).length = content.length / 32 * 32 :=
      List.length_take_of_le (by omega)
    have htail' : (content.drop (content.length / 32 * 32)).length = content.length % 32 := by
      rw [List.length_drop]
      omega
    have hne := xxh64_pieces_ne 0 (a := content.take (content.length / 32 * 32))
      (t := content.drop (content.length / 32 * 32)) (by rw [hstripes, Nat.mul_mod_left]) (by omega) List.length_set
      (tailPieces_set (i := i - content.length / 32 * 32) (by omega) (by simpa [htail] using hb))
    rw [← hdrop, List.take_append_drop, ← htake, List.take_append_drop, xxh64_eq, xxh64_eq] at hne
    rw [hhash, hhash, xxh64_eq, xxh64_eq]
    intro heq
    exact hne (congrArg some (Except.ok.inj heq).symm)

/-- A file of two bytes. -/
theorem changed_byte_changes_uuid_ab :
    calculateXxhash hashBuffer ⟨true, true, 0⟩ [97, 99] ≠ calculateXxhash hashBuffer ⟨true, true, 0⟩ [97, 98] :=
  @changed_byte_changes_uuid ⟨true, true, 0⟩ rfl rfl rfl [97, 98] 1 (by decide) (by decide) 99 (by decide)

end Rkx
