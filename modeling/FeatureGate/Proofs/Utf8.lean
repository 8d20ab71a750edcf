import Mathlib
import FeatureGate.Text.Utf8

/-!
Characters and their bytes. Reading a unit loses nothing, and the bytes of a
character are read as that character whatever follows them.
-/

namespace FeatureGate

def Utf8Unit.bytes : Utf8Unit → Bytes
  | .char c => Utf8.encode c
  | .stray b => [b]

namespace Utf8

theorem encode_one {c : Char} (h : c.toNat < 0x80) :
    encode c = [UInt8.ofNat c.toNat] := by
  have hone : c.val.toNat ≤ 0x7f := Nat.le_of_lt_succ h
  rw [encode, String.utf8EncodeChar, if_pos hone, Char.toNat_val]

theorem encode_two {c : Char} (h : 0x80 ≤ c.toNat) (h' : c.toNat < 0x800) :
    encode c = [UInt8.ofNat (c.toNat / 64 % 32 + 0xC0),
      UInt8.ofNat (c.toNat % 64 + 0x80)] := by
  have hone : ¬ c.val.toNat ≤ 0x7f := Nat.not_le_of_lt h
  have htwo : c.val.toNat ≤ 0x7ff := Nat.le_of_lt_succ h'
  rw [encode, String.utf8EncodeChar, if_neg hone, if_pos htwo, Char.toNat_val]

theorem encode_three {c : Char} (h : 0x800 ≤ c.toNat) (h' : c.toNat < 0x10000) :
    encode c = [UInt8.ofNat (c.toNat / 4096 % 16 + 0xE0),
      UInt8.ofNat (c.toNat / 64 % 64 + 0x80),
        UInt8.ofNat (c.toNat % 64 + 0x80)] := by
  have hone : ¬ c.val.toNat ≤ 0x7f :=
    Nat.not_le_of_lt (Nat.le_trans (by decide) h)
  have htwo : ¬ c.val.toNat ≤ 0x7ff := Nat.not_le_of_lt h
  have hthree : c.val.toNat ≤ 0xffff := Nat.le_of_lt_succ h'
  rw [encode, String.utf8EncodeChar, if_neg hone, if_neg htwo, if_pos hthree,
    Char.toNat_val]

theorem encode_four {c : Char} (h : 0x10000 ≤ c.toNat) :
    encode c = [UInt8.ofNat (c.toNat / 262144 % 8 + 0xF0),
      UInt8.ofNat (c.toNat / 4096 % 64 + 0x80),
        UInt8.ofNat (c.toNat / 64 % 64 + 0x80),
      UInt8.ofNat (c.toNat % 64 + 0x80)] := by
  have hone : ¬ c.val.toNat ≤ 0x7f :=
    Nat.not_le_of_lt (Nat.le_trans (by decide) h)
  have htwo : ¬ c.val.toNat ≤ 0x7ff :=
    Nat.not_le_of_lt (Nat.le_trans (by decide) h)
  have hthree : ¬ c.val.toNat ≤ 0xffff := Nat.not_le_of_lt h
  rw [encode, String.utf8EncodeChar, if_neg hone, if_neg htwo, if_neg hthree,
    Char.toNat_val]

theorem toNat_ofNat_of_valid {n : Nat} (h : n.isValidChar) :
    (Char.ofNat n).toNat = n := by
  rw [Char.toNat_ofNat, if_pos h]

theorem ofNat_of_eq {n : Nat} {b : UInt8} (h : n = b.toNat) :
    UInt8.ofNat n = b := by
  rw [h, UInt8.ofNat_toNat]

theorem isContinuation_iff {b : UInt8} :
    isContinuation b = true ↔ 0x80 ≤ b.toNat ∧ b.toNat ≤ 0xBF := by
  simp [isContinuation, UInt8.le_iff_toNat_le]

/-- Nothing is lost when a unit is read. -/
theorem bytes_unitOf (lead : UInt8) (rest : Bytes) :
    (unitOf lead rest).1.bytes ++ (unitOf lead rest).2 = lead :: rest := by
  fun_cases unitOf lead rest with
  | case1 _ hlead =>
      simp only [UInt8.lt_iff_toNat_lt, UInt8.reduceToNat] at hlead
      have hval := toNat_ofNat_of_valid (n := lead.toNat) (Or.inl (by omega))
      rw [Utf8Unit.bytes, encode_one (by omega), hval, ofNat_of_eq rfl]
      rfl
  | case2 _ hlead b rest hb =>
      simp only [UInt8.le_iff_toNat_le, UInt8.reduceToNat, Bool.and_eq_true,
        decide_eq_true_eq] at hlead
      rw [isContinuation_iff] at hb
      have hval := toNat_ofNat_of_valid (n := lead.toNat % 32 * 64 + payload b)
        (Or.inl (by unfold payload; omega))
      unfold payload at hval ⊢
      rw [Utf8Unit.bytes, encode_two (by omega) (by omega), hval,
        ofNat_of_eq (b := lead) (by omega), ofNat_of_eq (b := b) (by omega)]
      rfl
  | case5 _ _ hlead b b' rest hb =>
      simp only [UInt8.le_iff_toNat_le, UInt8.reduceToNat, Bool.and_eq_true,
        Bool.or_eq_true, bne_iff_ne, ne_eq, ← UInt8.toNat_inj,
        decide_eq_true_eq, isContinuation_iff] at hlead hb
      have hvalid :
          (lead.toNat % 16 * 4096 + payload b * 64 + payload b').isValidChar := by
        unfold payload Nat.isValidChar
        omega
      have hval := toNat_ofNat_of_valid hvalid
      unfold payload at hval ⊢
      rw [Utf8Unit.bytes, encode_three (by omega) (by omega), hval,
        ofNat_of_eq (b := lead) (by omega), ofNat_of_eq (b := b) (by omega),
        ofNat_of_eq (b := b') (by omega)]
      rfl
  | case8 _ _ _ hlead b b' b'' rest hb =>
      simp only [UInt8.le_iff_toNat_le, UInt8.reduceToNat, Bool.and_eq_true,
        Bool.or_eq_true, bne_iff_ne, ne_eq, ← UInt8.toNat_inj,
        decide_eq_true_eq, isContinuation_iff] at hlead hb
      have hvalid :
          (lead.toNat % 8 * 262144 + payload b * 4096 + payload b' * 64
          + payload b'').isValidChar := by
        unfold payload Nat.isValidChar
        omega
      have hval := toNat_ofNat_of_valid hvalid
      unfold payload at hval ⊢
      rw [Utf8Unit.bytes, encode_four (by omega), hval,
        ofNat_of_eq (b := lead) (by omega), ofNat_of_eq (b := b) (by omega),
        ofNat_of_eq (b := b') (by omega), ofNat_of_eq (b := b'') (by omega)]
      rfl
  | _ => rfl

/-- The units of a text hold all of its bytes. -/
theorem flatMap_bytes_units (bytes : Bytes) :
    (units bytes).flatMap Utf8Unit.bytes = bytes := by
  fun_induction units bytes with
  | case1 => rfl
  | case2 lead rest ih => rw [List.flatMap_cons, ih, bytes_unitOf]

theorem between_iff {low high b : UInt8} :
    (decide (low ≤ b) && decide (b ≤ high)) = true ↔
      low.toNat ≤ b.toNat ∧ b.toNat ≤ high.toNat := by
  simp [UInt8.le_iff_toNat_le]

theorem unitOf_one {lead : UInt8} (hlead : lead.toNat < 0x80) (rest : Bytes) :
    unitOf lead rest = (.char (Char.ofNat lead.toNat), rest) := by
  have hone : lead < 0x80 := UInt8.lt_iff_toNat_lt.mpr hlead
  simp only [unitOf, if_pos hone]

theorem unitOf_two {lead b : UInt8}
    (hlead : 0xC2 ≤ lead.toNat ∧ lead.toNat ≤ 0xDF)
    (hb : isContinuation b = true) (rest : Bytes) :
    unitOf lead (b :: rest) =
      (.char (Char.ofNat (lead.toNat % 32 * 64 + payload b)), rest) := by
  have hone : ¬ lead < 0x80 :=
    mt UInt8.lt_iff_toNat_lt.mp (by simp only [UInt8.reduceToNat]; omega)
  have htwo : (0xC2 ≤ lead && lead ≤ 0xDF) = true := between_iff.mpr hlead
  simp only [unitOf, if_neg hone, if_pos htwo, if_pos hb]

theorem unitOf_three {lead b b' : UInt8}
    (hlead : 0xE0 ≤ lead.toNat ∧ lead.toNat ≤ 0xEF)
    (hb : isContinuation b = true) (hb' : isContinuation b' = true)
    (hlow : lead.toNat = 0xE0 → 0xA0 ≤ b.toNat)
    (hhigh : lead.toNat = 0xED → b.toNat ≤ 0x9F) (rest : Bytes) :
    unitOf lead (b :: b' :: rest) =
      (.char (Char.ofNat
        (lead.toNat % 16 * 4096 + payload b * 64 + payload b')), rest) := by
  have hone : ¬ lead < 0x80 :=
    mt UInt8.lt_iff_toNat_lt.mp (by simp only [UInt8.reduceToNat]; omega)
  have htwo : ¬ (0xC2 ≤ lead && lead ≤ 0xDF) = true :=
    mt between_iff.mp (by simp only [UInt8.reduceToNat]; omega)
  have hthree : (0xE0 ≤ lead && lead ≤ 0xEF) = true := between_iff.mpr hlead
  have hbounds :
      (isContinuation b && isContinuation b' && (lead != 0xE0 || 0xA0 ≤ b)
      && (lead != 0xED || b ≤ 0x9F)) = true := by
    simp only [hb, hb', UInt8.le_iff_toNat_le, UInt8.reduceToNat,
      Bool.and_eq_true, Bool.or_eq_true, bne_iff_ne, ne_eq, ← UInt8.toNat_inj,
      decide_eq_true_eq, true_and]
    exact ⟨imp_iff_not_or.mp hlow, imp_iff_not_or.mp hhigh⟩
  simp only [unitOf, if_neg hone, if_neg htwo, if_pos hthree, if_pos hbounds]

theorem unitOf_four {lead b b' b'' : UInt8}
    (hlead : 0xF0 ≤ lead.toNat ∧ lead.toNat ≤ 0xF4)
    (hb : isContinuation b = true) (hb' : isContinuation b' = true)
    (hb'' : isContinuation b'' = true)
    (hlow : lead.toNat = 0xF0 → 0x90 ≤ b.toNat)
    (hhigh : lead.toNat = 0xF4 → b.toNat ≤ 0x8F) (rest : Bytes) :
    unitOf lead (b :: b' :: b'' :: rest) =
      (.char (Char.ofNat
        (lead.toNat % 8 * 262144 + payload b * 4096 + payload b' * 64
        + payload b'')), rest) := by
  have hone : ¬ lead < 0x80 :=
    mt UInt8.lt_iff_toNat_lt.mp (by simp only [UInt8.reduceToNat]; omega)
  have htwo : ¬ (0xC2 ≤ lead && lead ≤ 0xDF) = true :=
    mt between_iff.mp (by simp only [UInt8.reduceToNat]; omega)
  have hthree : ¬ (0xE0 ≤ lead && lead ≤ 0xEF) = true :=
    mt between_iff.mp (by simp only [UInt8.reduceToNat]; omega)
  have hfour : (0xF0 ≤ lead && lead ≤ 0xF4) = true := between_iff.mpr hlead
  have hbounds : (isContinuation b && isContinuation b' && isContinuation b''
      && (lead != 0xF0 || 0x90 ≤ b) && (lead != 0xF4 || b ≤ 0x8F)) = true := by
    simp only [hb, hb', hb'', UInt8.le_iff_toNat_le, UInt8.reduceToNat,
      Bool.and_eq_true, Bool.or_eq_true, bne_iff_ne, ne_eq, ← UInt8.toNat_inj,
      decide_eq_true_eq, true_and]
    exact ⟨imp_iff_not_or.mp hlow, imp_iff_not_or.mp hhigh⟩
  simp only [unitOf, if_neg hone, if_neg htwo, if_neg hthree, if_pos hfour,
    if_pos hbounds]

theorem toNat_ofNat_byte {n : Nat} (h : n < 256) : (UInt8.ofNat n).toNat = n :=
  UInt8.toNat_ofNat_of_lt' h

/-- The bytes of a character are its own code below 128, and 128 or more
beyond. -/
theorem mem_encode {c : Char} {b : UInt8} (h : b ∈ encode c) :
    c.toNat < 0x80 ∧ b = UInt8.ofNat c.toNat ∨ 0x80 ≤ b.toNat := by
  have hvalid : c.toNat < 0xD800 ∨ (0xDFFF < c.toNat ∧ c.toNat < 0x110000) :=
    c.valid
  by_cases hone : c.toNat < 0x80
  · rw [encode_one hone, List.mem_singleton] at h
    exact Or.inl ⟨hone, h⟩
  right
  by_cases htwo : c.toNat < 0x800
  · rw [encode_two (by omega) htwo] at h
    simp only [List.mem_cons, List.not_mem_nil, or_false] at h
    rcases h with rfl | rfl <;> rw [toNat_ofNat_byte (by omega)] <;> omega
  by_cases hthree : c.toNat < 0x10000
  · rw [encode_three (by omega) hthree] at h
    simp only [List.mem_cons, List.not_mem_nil, or_false] at h
    rcases h with rfl | rfl | rfl <;> rw [toNat_ofNat_byte (by omega)] <;> omega
  · rw [encode_four (by omega)] at h
    simp only [List.mem_cons, List.not_mem_nil, or_false] at h
    rcases h with rfl | rfl | rfl | rfl <;> rw [toNat_ofNat_byte (by omega)]
      <;> omega

theorem toNat_byte {d : Char} (hd : d.toNat < 0x80) :
    (byte d).toNat = d.toNat := by
  simp only [byte, Char.toUInt8, UInt32.toNat_toUInt8, Char.toNat_val]
  omega

/-- An ASCII byte among the bytes of a character is the whole character. -/
theorem eq_of_byte_mem_encode {c d : Char} (hd : d.toNat < 0x80)
    (h : byte d ∈ encode c) :
    c = d := by
  have hbyte := toNat_byte hd
  rcases mem_encode h with ⟨hc, heq⟩ | hlarge
  · have hcode := congrArg UInt8.toNat heq
    rw [hbyte, toNat_ofNat_byte (by omega)] at hcode
    exact Char.toNat_inj.mp hcode.symm
  · omega

theorem encode_ne_nil (c : Char) : encode c ≠ [] := by
  intro h
  have hlen := congrArg List.length h
  rw [encode, String.length_utf8EncodeChar] at hlen
  exact absurd hlen (Nat.ne_of_gt c.utf8Size_pos)

theorem isContinuation_ofNat (n : Nat) :
    isContinuation (UInt8.ofNat (n % 64 + 0x80)) = true := by
  rw [isContinuation_iff, toNat_ofNat_byte (by omega)]
  omega

theorem payload_ofNat (n : Nat) :
    payload (UInt8.ofNat (n % 64 + 0x80)) = n % 64 := by
  rw [payload, toNat_ofNat_byte (by omega)]
  omega

/-- Reading the bytes of a character gives the character back, whatever follows
them. -/
theorem unitOf_encode {c : Char} {lead : UInt8} {tail : Bytes}
    (h : encode c = lead :: tail) (rest : Bytes) :
    unitOf lead (tail ++ rest) = (.char c, rest) := by
  have hvalid : c.toNat < 0xD800 ∨ (0xDFFF < c.toNat ∧ c.toNat < 0x110000) :=
    c.valid
  by_cases hone : c.toNat < 0x80
  · rw [encode_one hone] at h
    obtain ⟨rfl, rfl⟩ := List.cons.inj h
    have hlead := toNat_ofNat_byte (n := c.toNat) (by omega)
    rw [List.nil_append, unitOf_one (by omega), hlead, Char.ofNat_toNat]
  by_cases htwo : c.toNat < 0x800
  · rw [encode_two (by omega) htwo] at h
    obtain ⟨rfl, rfl⟩ := List.cons.inj h
    have hlead := toNat_ofNat_byte (n := c.toNat / 64 % 32 + 0xC0) (by omega)
    have hcode : (c.toNat / 64 % 32 + 0xC0) % 32 * 64 + c.toNat % 64 =
        c.toNat := by omega
    rw [List.cons_append, List.nil_append,
      unitOf_two (by omega) (isContinuation_ofNat _), hlead, payload_ofNat,
      hcode, Char.ofNat_toNat]
  by_cases hthree : c.toNat < 0x10000
  · rw [encode_three (by omega) hthree] at h
    obtain ⟨rfl, rfl⟩ := List.cons.inj h
    have hlead := toNat_ofNat_byte (n := c.toNat / 4096 % 16 + 0xE0) (by omega)
    have hb := toNat_ofNat_byte (n := c.toNat / 64 % 64 + 0x80) (by omega)
    have hcode :
        (c.toNat / 4096 % 16 + 0xE0) % 16 * 4096 + c.toNat / 64 % 64 * 64
        + c.toNat % 64 = c.toNat := by omega
    simp only [List.cons_append, List.nil_append]
    rw [unitOf_three (by omega) (isContinuation_ofNat _)
      (isContinuation_ofNat _) (by omega)
      (by omega), hlead, payload_ofNat, payload_ofNat, hcode, Char.ofNat_toNat]
  · rw [encode_four (by omega)] at h
    obtain ⟨rfl, rfl⟩ := List.cons.inj h
    have hlead := toNat_ofNat_byte (n := c.toNat / 262144 % 8 + 0xF0) (by omega)
    have hb := toNat_ofNat_byte (n := c.toNat / 4096 % 64 + 0x80) (by omega)
    have hcode :
        (c.toNat / 262144 % 8 + 0xF0) % 8 * 262144 + c.toNat / 4096 % 64 * 4096
        + c.toNat / 64 % 64 * 64 + c.toNat % 64 = c.toNat := by omega
    simp only [List.cons_append, List.nil_append]
    rw [unitOf_four (by omega) (isContinuation_ofNat _) (isContinuation_ofNat _)
      (isContinuation_ofNat _) (by omega) (by omega), hlead, payload_ofNat,
        payload_ofNat,
      payload_ofNat, hcode, Char.ofNat_toNat]

theorem units_nil : units [] = [] := by rw [units]

/-- A text is known from its units. -/
theorem units_injective : Function.Injective units := by
  intro text text' h
  rw [← flatMap_bytes_units text, h, flatMap_bytes_units]

theorem units_eq_cons {body : Bytes} {u : Utf8Unit} {rest : List Utf8Unit}
    (h : units body = u :: rest) :
    ∃ body', body = u.bytes ++ body' ∧ units body' = rest := by
  cases body with
  | nil => simp [units] at h
  | cons lead tail =>
      rw [units, List.cons.injEq] at h
      refine ⟨(unitOf lead tail).2, ?_, h.2⟩
      rw [← h.1, bytes_unitOf]

/-- A byte that stands alone is not ASCII. -/
theorem stray_mem_units {body : Bytes} {b : UInt8} (h : .stray b ∈ units body) :
    0x80 ≤ b.toNat := by
  fun_induction units body with
  | case1 => simp at h
  | case2 lead rest ih =>
      rcases List.mem_cons.mp h with hfirst | hrest
      · have hbytes := bytes_unitOf lead rest
        rw [← hfirst] at hbytes
        obtain ⟨rfl, -⟩ := List.cons.inj hbytes
        by_contra hlow
        rw [unitOf_one (by omega)] at hfirst
        simp at hfirst
      · exact ih hrest

/-- An ASCII byte among the bytes of a unit is the whole unit. -/
theorem eq_char_of_byte_mem {body : Bytes} {u : Utf8Unit} (hu : u ∈ units body)
    {d : Char} (hd : d.toNat < 0x80) (h : byte d ∈ u.bytes) : u = .char d := by
  cases u with
  | char c => rw [eq_of_byte_mem_encode hd h]
  | stray b =>
      have hhigh := stray_mem_units hu
      rw [Utf8Unit.bytes, List.mem_singleton] at h
      rw [← h, toNat_byte hd] at hhigh
      omega

end Utf8

theorem Utf8Unit.bytes_ne_nil (u : Utf8Unit) : u.bytes ≠ [] := by
  cases u with
  | char c => exact Utf8.encode_ne_nil c
  | stray b => simp [bytes]

end FeatureGate
