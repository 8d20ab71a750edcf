import Mathlib
import FeatureGate.Text.Quoted
import FeatureGate.Proofs.Utf8
import FeatureGate.Proofs.Scanning

/-!
Quoting any byte string and reading it back. A quoted text contains only
characters that stand for themselves and escapes, so unquoting gives the bytes
back and the scanner sees one string.
-/

namespace FeatureGate

namespace Bytes

theorem hexValue_hexDigit : ∀ d : Nat, d < 16 → hexValue (hexDigit d) = d := by
  decide

theorem isHexDigit_hexDigit :
    ∀ d : Nat, d < 16 → isHexDigit (hexDigit d) = true := by decide

theorem length_hexDigits (width n : Nat) :
    (hexDigits width n).length = width := by
  induction width generalizing n with
  | zero => rfl
  | succ width ih =>
      rw [hexDigits, List.length_append, ih, List.length_singleton]

theorem isHexDigit_of_mem_hexDigits {width n : Nat} {b : UInt8}
    (h : b ∈ hexDigits width n) :
    isHexDigit b = true := by
  induction width generalizing n with
  | zero => simp [hexDigits] at h
  | succ width ih =>
      rw [hexDigits, List.mem_append, List.mem_singleton] at h
      rcases h with h | rfl
      · exact ih h
      · exact isHexDigit_hexDigit _ (Nat.mod_lt _ (by decide))

/-- The digits of a number stand for the number, cut to as many digits. -/
theorem ofHexDigits_hexDigits (width n : Nat) :
    ofHexDigits (hexDigits width n) = n % 16 ^ width := by
  induction width generalizing n with
  | zero => simp [hexDigits, ofHexDigits, Nat.mod_one]
  | succ width ih =>
      have hlast := hexValue_hexDigit (n % 16) (Nat.mod_lt _ (by decide))
      have hfront := ih (n / 16)
      unfold ofHexDigits at hfront ⊢
      rw [hexDigits, List.foldl_append, hfront, List.foldl_cons, List.foldl_nil,
        hlast, Nat.pow_succ', Nat.mod_mul]
      omega

end Bytes

namespace Quoted

/-- Digits that were written are read as the same number. -/
theorem hexNumber?_hexDigits (width : Nat) {n : Nat} (h : n < 16 ^ width)
    (rest : Bytes) :
    hexNumber? width (Bytes.hexDigits width n ++ rest) = some (n, rest) := by
  have hlen := Bytes.length_hexDigits width n
  have hdigits : (Bytes.hexDigits width n).all Bytes.isHexDigit = true :=
    List.all_eq_true.mpr fun _ hb => Bytes.isHexDigit_of_mem_hexDigits hb
  rw [hexNumber?, List.take_left' hlen, List.drop_left' hlen, hdigits, hlen]
  simp [Bytes.ofHexDigits_hexDigits, Nat.mod_eq_of_lt h]

theorem controlOfLetter?_letterOfControl? {c letter : Char}
    (h : letterOfControl? c = some letter) :
    controlOfLetter? (byte letter) = some (UInt8.ofNat c.toNat) ∧ c.toNat < 0x80
      ∧ byte letter ≠ byte '\n' := by
  unfold letterOfControl? at h
  split at h <;> simp only [Option.some.injEq, reduceCtorEq] at h
  all_goals
    subst h
    simp_all
    decide

theorem readEscape?_letter {letter control : UInt8}
    (h : controlOfLetter? letter = some control) (rest : Bytes) :
    readEscape? (letter :: rest) = some ([control], rest) := by
  simp [readEscape?, h]

theorem readEscape?_mark {c : Char} (h : c = '"' ∨ c = '\\') (rest : Bytes) :
    readEscape? (byte c :: rest) = some ([byte c], rest) := by
  rcases h with rfl | rfl <;> rfl

theorem readEscape?_byte {n : Nat} (h : n < 256) (rest : Bytes) :
    readEscape? (byte 'x' :: (Bytes.hexDigits 2 n ++ rest)) =
      some ([UInt8.ofNat n], rest) := by
  have hkind : controlOfLetter? (byte 'x') = none := by decide
  simp [readEscape?, hkind, hexNumber?_hexDigits 2 h]

theorem readEscape?_short {c : Char} (h : c.toNat < 0x10000) (rest : Bytes) :
    readEscape? (byte 'u' :: (Bytes.hexDigits 4 c.toNat ++ rest)) =
      some (Utf8.encode c, rest) := by
  have hkind : controlOfLetter? (byte 'u') = none := by decide
  have hbyte : byte 'u' ≠ byte 'x' := by decide
  have hvalid : c.toNat.isValidChar := c.valid
  simp [readEscape?, hkind, hbyte, hexNumber?_hexDigits 4 h, hvalid]

theorem readEscape?_long (c : Char) (rest : Bytes) :
    readEscape? (byte 'U' :: (Bytes.hexDigits 8 c.toNat ++ rest)) =
      some (Utf8.encode c, rest) := by
  have hkind : controlOfLetter? (byte 'U') = none := by decide
  have hbyte : byte 'U' ≠ byte 'x' := by decide
  have hshort : byte 'U' ≠ byte 'u' := by decide
  have hvalid : c.toNat.isValidChar := c.valid
  have hlt : c.toNat < 16 ^ 8 := by
    unfold Nat.isValidChar at hvalid
    omega
  simp [readEscape?, hkind, hbyte, hshort, hexNumber?_hexDigits 8 hlt, hvalid]

/-- A written unit is either a character that stands for itself, or a backslash
with an escape that reads back as the unit's bytes. -/
theorem escapeUnit_cases (u : Utf8Unit) :
    (∃ c, u = .char c ∧ escapeUnit u = Utf8.encode c ∧ c ≠ '"' ∧ c ≠ '\\' ∧
      c ≠ '\n') ∨
      ∃ kind digits, escapeUnit u = byte '\\' :: kind :: digits
        ∧ kind ≠ byte '\n'
        ∧ (∀ d ∈ digits, Bytes.isHexDigit d = true)
        ∧ ∀ rest, readEscape? (kind :: digits ++ rest) =
          some (u.bytes, rest) := by
  cases u with
  | stray b =>
      refine Or.inr ⟨byte 'x', Bytes.hexDigits 2 b.toNat, rfl,
        by decide, ?_, ?_⟩
      · exact fun d hd => Bytes.isHexDigit_of_mem_hexDigits hd
      · intro rest
        rw [List.cons_append, readEscape?_byte b.toNat_lt, UInt8.ofNat_toNat]
        rfl
  | char c =>
      simp only [escapeUnit, escapeChar]
      split
      · rename_i hmark
        have hmark : c = '"' ∨ c = '\\' := by simpa using hmark
        refine Or.inr ⟨byte c, [], rfl, ?_, by simp, ?_⟩
        · rcases hmark with rfl | rfl <;> decide
        · intro rest
          rw [List.cons_append, readEscape?_mark hmark]
          rcases hmark with rfl | rfl <;> rfl
      rename_i hmark
      split
      · rename_i hprint
        refine Or.inl ⟨c, rfl, rfl, ?_, ?_, ?_⟩
        · rintro rfl
          simp at hmark
        · rintro rfl
          simp at hmark
        · rintro rfl
          exact absurd hprint (by decide)
      split
      · rename_i letter hletter
        obtain ⟨hread, hsmall, hline⟩ :=
          controlOfLetter?_letterOfControl? hletter
        refine Or.inr ⟨byte letter, [], rfl, hline, by simp, ?_⟩
        intro rest
        rw [List.cons_append, readEscape?_letter hread, Utf8Unit.bytes,
          Utf8.encode_one hsmall]
        rfl
      split
      · rename_i hcode
        have hsmall : c.toNat < 0x80 := by
          simp only [Bool.or_eq_true, decide_eq_true_eq] at hcode
          omega
        refine Or.inr ⟨byte 'x', Bytes.hexDigits 2 c.toNat, rfl,
          by decide, ?_, ?_⟩
        · exact fun d hd => Bytes.isHexDigit_of_mem_hexDigits hd
        · intro rest
          rw [List.cons_append, readEscape?_byte (by omega), Utf8Unit.bytes,
            Utf8.encode_one hsmall]
      split
      · rename_i hcode
        refine Or.inr ⟨byte 'u', Bytes.hexDigits 4 c.toNat, rfl,
          by decide, ?_, ?_⟩
        · exact fun d hd => Bytes.isHexDigit_of_mem_hexDigits hd
        · exact fun rest => readEscape?_short hcode rest
      · refine Or.inr ⟨byte 'U', Bytes.hexDigits 8 c.toNat, rfl,
          by decide, ?_, ?_⟩
        · exact fun d hd => Bytes.isHexDigit_of_mem_hexDigits hd
        · exact fun rest => readEscape?_long c rest

theorem readBody?_escape {escape value rest : Bytes}
    (h : readEscape? escape = some (value, rest)) :
    readBody? (byte '\\' :: escape) = (readBody? rest).map (value ++ ·) := by
  have hquote : byte '\\' ≠ byte '"' := by decide
  have hline : byte '\\' ≠ byte '\n' := by decide
  rw [readBody?, if_neg hquote, if_neg hline, if_pos rfl]
  split
  · rename_i value' rest' h'
    rw [h] at h'
    simp only [Option.some.injEq, Prod.mk.injEq] at h'
    obtain ⟨rfl, rfl⟩ := h'
    rfl
  · rename_i h'
    rw [h] at h'
    exact absurd h' (by simp)

theorem readBody?_char {c : Char} (hquote : c ≠ '"') (hback : c ≠ '\\')
    (hline : c ≠ '\n') (rest : Bytes) :
    readBody? (Utf8.encode c ++ rest) = (readBody? rest).map
      (Utf8.encode c ++ ·) := by
  obtain ⟨lead, tail, hbytes⟩ :=
    List.exists_cons_of_ne_nil (Utf8.encode_ne_nil c)
  -- The first byte decides the branch, and an ASCII byte is the whole
  -- character.
  have hlead : ∀ d : Char, d.toNat < 0x80 → c ≠ d → lead ≠ byte d := by
    intro d hd hne heq
    apply hne
    apply Utf8.eq_of_byte_mem_encode hd
    rw [hbytes, heq]
    exact List.mem_cons_self
  rw [hbytes, List.cons_append, readBody?,
    if_neg (hlead '"' (by decide) hquote),
    if_neg (hlead '\n' (by decide) hline),
    if_neg (hlead '\\' (by decide) hback), Utf8.unitOf_encode hbytes, ← hbytes]
  rfl

/-- A written unit reads back as its bytes, whatever follows it. -/
theorem readBody?_escapeUnit (u : Utf8Unit) (rest : Bytes) :
    readBody? (escapeUnit u ++ rest) = (readBody? rest).map (u.bytes ++ ·) := by
  rcases escapeUnit_cases u with
    ⟨c, rfl, htext, hquote, hback, hline⟩ | ⟨kind, digits, htext, -, -, hread⟩
  · rw [htext, readBody?_char hquote hback hline]
    rfl
  · rw [htext, List.cons_append, readBody?_escape (hread rest)]

/-- What was escaped is read back, up to the closing quote. -/
theorem readBody?_flatMap_escapeUnit (us : List Utf8Unit) :
    readBody? (us.flatMap escapeUnit ++ [byte '"']) =
      some (us.flatMap Utf8Unit.bytes) := by
  induction us with
  | nil =>
      rw [List.flatMap_nil, List.nil_append, readBody?, if_pos rfl]
      rfl
  | cons u us ih =>
      rw [List.flatMap_cons, List.append_assoc, readBody?_escapeUnit, ih,
        List.flatMap_cons, Option.map_some]

end Quoted

/-- Unquoting undoes quoting, on every byte string. -/
theorem unquote?_quote (bytes : Bytes) :
    unquote? (quote bytes) = some bytes := by
  simp only [quote, List.cons_append, List.nil_append, unquote?, if_pos]
  rw [Quoted.readBody?_flatMap_escapeUnit, Utf8.flatMap_bytes_units]

namespace Token

theorem paired_escapeUnit (u : Utf8Unit) : Paired (Quoted.escapeUnit u) := by
  rcases Quoted.escapeUnit_cases u with
    ⟨c, -, htext, hquote, hback, -⟩ | ⟨kind, digits, htext, hline, hdigits, -⟩
  · rw [htext]
    apply Paired.of_forall_ne
    intro b hb
    constructor
    · rintro rfl
      exact hquote (Utf8.eq_of_byte_mem_encode (by decide) hb)
    · rintro rfl
      exact hback (Utf8.eq_of_byte_mem_encode (by decide) hb)
  · rw [htext]
    apply Paired.pair hline
    apply Paired.of_forall_ne
    intro b hb
    constructor
    · rintro rfl
      exact absurd (hdigits _ hb) (by decide)
    · rintro rfl
      exact absurd (hdigits _ hb) (by decide)

/-- No quote that ends a string comes of escaping. -/
theorem paired_flatMap_escapeUnit (us : List Utf8Unit) :
    Paired (us.flatMap Quoted.escapeUnit) := by
  induction us with
  | nil => exact .nil
  | cons u us ih =>
      rw [List.flatMap_cons]
      exact (paired_escapeUnit u).append ih

/-- A quoted text is one string token, whatever follows it. -/
theorem fits_quote (bytes rest : Bytes) : Fits .string (quote bytes) rest := by
  have hpaired := paired_flatMap_escapeUnit (Utf8.units bytes)
  rw [quote, List.append_assoc, List.singleton_append]
  apply Fits.string
  rw [List.append_assoc, List.singleton_append, hpaired.stringEnd?_append,
    List.length_append, List.length_singleton]

end Token

end FeatureGate
