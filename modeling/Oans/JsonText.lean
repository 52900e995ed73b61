import Oans.ControlChars
import Oans.JsonString

/-!
# Names in JSON

`print_json_str()` writes a name as a JSON string literal: controls and bytes that start no UTF-8
character as `\u00NN`, quotes and backslashes escaped, and every other character as it is. What it
writes is UTF-8, and a JSON reader reads the name back, character by character where the name is
UTF-8 and byte by byte where it is not.
-/

namespace Oans

open Utf8 JsonString

def utf8SeqLen (p : List UInt8) : ℕ :=
  let lead := byteAt p 0
  if lead < 0x80 then 1
  else
    let n :=
      if 0xc2 ≤ lead ∧ lead ≤ 0xdf then 2
      else if 0xe0 ≤ lead ∧ lead ≤ 0xef then 3
      else if 0xf0 ≤ lead ∧ lead ≤ 0xf4 then 4
      else 0
    let lo : UInt8 := if lead = 0xe0 then 0xa0 else if lead = 0xf0 then 0x90 else 0x80
    let hi : UInt8 := if lead = 0xed then 0x9f else if lead = 0xf4 then 0x8f else 0xbf
    if n = 0 then 0
    else if byteAt p 1 < lo ∨ hi < byteAt p 1 then 0
    else if 2 < n ∧ (byteAt p 2 < 0x80 ∨ 0xbf < byteAt p 2) then 0
    else if 3 < n ∧ (byteAt p 3 < 0x80 ∨ 0xbf < byteAt p 3) then 0
    else n

def jsonEscape (c : UInt8) : List UInt8 :=
  [0x5c, 0x75, 0x30, 0x30, hexDigit (c.toNat / 16), hexDigit (c.toNat % 16)]

def printJsonBody (p : List UInt8) : List UInt8 :=
  match p with
  | [] => []
  | b :: s =>
    match ctrlSeqLen (b :: s) with
    | some (n, cp) => jsonEscape cp ++ printJsonBody (s.drop (n - 1))
    | none =>
      if b = 0x22 ∨ b = 0x5c then 0x5c :: b :: printJsonBody s
      else
        let n := utf8SeqLen (b :: s)
        if n ≠ 0 then (b :: s).take n ++ printJsonBody (s.drop (n - 1))
        else jsonEscape b ++ printJsonBody s
termination_by p.length

def printJsonStr (s : CString) : List UInt8 := 0x22 :: printJsonBody s.bytes ++ [0x22]

section SeqLen

variable {p : List UInt8} {a b c d : ℕ}

theorem utf8SeqLen_two (ha : (byteAt p 0).toNat = a) (hb : (byteAt p 1).toNat = b)
    (hlow : 0xc2 ≤ a) (hhigh : a ≤ 0xdf) :
    utf8SeqLen p = if 0x80 ≤ b ∧ b ≤ 0xbf then 2 else 0 := by
  unfold utf8SeqLen
  simp only [UInt8.lt_iff_toNat_lt, UInt8.le_iff_toNat_le, ← UInt8.toNat_inj, UInt8.reduceToNat,
    ha]
  have hn : (if 0xc2 ≤ a ∧ a ≤ 0xdf then 2 else if 0xe0 ≤ a ∧ a ≤ 0xef then 3
      else if 0xf0 ≤ a ∧ a ≤ 0xf4 then 4 else 0) = 2 := if_pos ⟨hlow, hhigh⟩
  rw [hn, if_neg (by omega)]
  simp only [apply_ite UInt8.toNat, UInt8.reduceToNat, hb]
  split_ifs <;> omega

theorem utf8SeqLen_three (ha : (byteAt p 0).toNat = a) (hb : (byteAt p 1).toNat = b)
    (hc : (byteAt p 2).toNat = c) (hlow : 0xe0 ≤ a) (hhigh : a ≤ 0xef) :
    utf8SeqLen p = if 0x80 ≤ b ∧ b ≤ 0xbf ∧ 0x80 ≤ c ∧ c ≤ 0xbf ∧ (a = 0xe0 → 0xa0 ≤ b) ∧
      (a = 0xed → b ≤ 0x9f) then 3 else 0 := by
  unfold utf8SeqLen
  simp only [UInt8.lt_iff_toNat_lt, UInt8.le_iff_toNat_le, ← UInt8.toNat_inj, UInt8.reduceToNat,
    ha]
  have hn : (if 0xc2 ≤ a ∧ a ≤ 0xdf then 2 else if 0xe0 ≤ a ∧ a ≤ 0xef then 3
      else if 0xf0 ≤ a ∧ a ≤ 0xf4 then 4 else 0) = 3 := by
    rw [if_neg (by omega), if_pos ⟨hlow, hhigh⟩]
  rw [hn, if_neg (by omega)]
  simp only [apply_ite UInt8.toNat, UInt8.reduceToNat, hb, hc]
  split_ifs <;> omega

theorem utf8SeqLen_four (ha : (byteAt p 0).toNat = a) (hb : (byteAt p 1).toNat = b)
    (hc : (byteAt p 2).toNat = c) (hd : (byteAt p 3).toNat = d) (hlow : 0xf0 ≤ a)
    (hhigh : a ≤ 0xf4) :
    utf8SeqLen p = if 0x80 ≤ b ∧ b ≤ 0xbf ∧ 0x80 ≤ c ∧ c ≤ 0xbf ∧ 0x80 ≤ d ∧ d ≤ 0xbf ∧
      (a = 0xf0 → 0x90 ≤ b) ∧ (a = 0xf4 → b ≤ 0x8f) then 4 else 0 := by
  unfold utf8SeqLen
  simp only [UInt8.lt_iff_toNat_lt, UInt8.le_iff_toNat_le, ← UInt8.toNat_inj, UInt8.reduceToNat,
    ha]
  have hn : (if 0xc2 ≤ a ∧ a ≤ 0xdf then 2 else if 0xe0 ≤ a ∧ a ≤ 0xef then 3
      else if 0xf0 ≤ a ∧ a ≤ 0xf4 then 4 else 0) = 4 := by
    rw [if_neg (by omega), if_neg (by omega), if_pos ⟨hlow, hhigh⟩]
  rw [hn, if_neg (by omega)]
  simp only [apply_ite UInt8.toNat, UInt8.reduceToNat, hb, hc, hd]
  split_ifs <;> omega

/-- No other byte past ASCII starts a sequence. -/
theorem utf8SeqLen_none (ha : (byteAt p 0).toNat = a) (hascii : 0x80 ≤ a)
    (hlead : a < 0xc2 ∨ 0xf4 < a) : utf8SeqLen p = 0 := by
  unfold utf8SeqLen
  simp only [UInt8.lt_iff_toNat_lt, UInt8.le_iff_toNat_le, UInt8.reduceToNat, ha]
  have hn : (if 0xc2 ≤ a ∧ a ≤ 0xdf then 2 else if 0xe0 ≤ a ∧ a ≤ 0xef then 3
      else if 0xf0 ≤ a ∧ a ≤ 0xf4 then 4 else 0) = 0 := by
    rw [if_neg (by omega), if_neg (by omega), if_neg (by omega)]
  rw [hn, if_neg (by omega), if_pos rfl]

end SeqLen

theorem utf8SeqLen_of_wellFormed {bs : List UInt8} (h : WellFormed bs) (s : List UInt8) :
    utf8SeqLen (bs ++ s) = bs.length := by
  cases h with
  | one ha => exact if_pos ha
  | @two a b ha ha' hb =>
    obtain ⟨hb, hb'⟩ := hb
    simp only [UInt8.le_iff_toNat_le, UInt8.reduceToNat] at ha ha' hb hb'
    rw [@utf8SeqLen_two ([a, b] ++ s) _ _ rfl rfl ha ha']
    exact if_pos ⟨hb, hb'⟩
  | @three a b c ha ha' hb hc hlow hhigh =>
    obtain ⟨hb, hb'⟩ := hb
    obtain ⟨hc, hc'⟩ := hc
    simp only [UInt8.le_iff_toNat_le, ← UInt8.toNat_inj, UInt8.reduceToNat] at *
    rw [@utf8SeqLen_three ([a, b, c] ++ s) _ _ _ rfl rfl rfl ha ha']
    exact if_pos ⟨hb, hb', hc, hc', hlow, hhigh⟩
  | @four a b c d ha ha' hb hc hd hlow hhigh =>
    obtain ⟨hb, hb'⟩ := hb
    obtain ⟨hc, hc'⟩ := hc
    obtain ⟨hd, hd'⟩ := hd
    simp only [UInt8.le_iff_toNat_le, ← UInt8.toNat_inj, UInt8.reduceToNat] at *
    rw [@utf8SeqLen_four ([a, b, c, d] ++ s) _ _ _ _ rfl rfl rfl rfl ha ha']
    exact if_pos ⟨hb, hb', hc, hc', hd, hd', hlow, hhigh⟩

theorem eq_cons_of_byteAt {s : List UInt8} (h : 0x80 ≤ (byteAt s 0).toNat) :
    ∃ x t, s = x :: t := by
  cases s with
  | nil => exact absurd h (by decide)
  | cons x t => exact ⟨x, t, rfl⟩

/-- Where `utf8_seq_len()` finds a sequence, it is the encoding of a character. -/
theorem wellFormed_of_utf8SeqLen {a : UInt8} {s : List UInt8} (h : utf8SeqLen (a :: s) ≠ 0) :
    WellFormed ((a :: s).take (utf8SeqLen (a :: s))) := by
  rcases Nat.lt_or_ge a.toNat 0x80 with hascii | hascii
  · have hone : utf8SeqLen (a :: s) = 1 := if_pos (UInt8.lt_iff_toNat_lt.mpr hascii)
    rw [hone]
    exact .one (UInt8.lt_iff_toNat_lt.mpr hascii)
  by_cases hnone : a.toNat < 0xc2 ∨ 0xf4 < a.toNat
  · exact absurd (@utf8SeqLen_none (a :: s) _ rfl hascii hnone) h
  rw [not_or, Nat.not_lt, Nat.not_lt] at hnone
  obtain ⟨hlow, hhigh⟩ := hnone
  have hle : ∀ {x y : UInt8}, x.toNat ≤ y.toNat → x ≤ y := UInt8.le_iff_toNat_le.mpr
  rcases Nat.lt_or_ge 0xdf a.toNat with htwo | htwo
  · rcases Nat.lt_or_ge 0xef a.toNat with hthree | hthree
    · have hlen := @utf8SeqLen_four (a :: s) _ _ _ _ rfl rfl rfl rfl hthree hhigh
      split_ifs at hlen with htail
      · obtain ⟨hb, hb', hc, hc', hd, hd', hmin, hmax⟩ := htail
        obtain ⟨b, t, rfl⟩ := @eq_cons_of_byteAt s hb
        obtain ⟨c, t, rfl⟩ := @eq_cons_of_byteAt t hc
        obtain ⟨d, t, rfl⟩ := @eq_cons_of_byteAt t hd
        rw [hlen]
        exact .four (hle hthree) (hle hhigh) ⟨hle hb, hle hb'⟩ ⟨hle hc, hle hc'⟩
          ⟨hle hd, hle hd'⟩ (fun he => hle (hmin (congrArg UInt8.toNat he)))
          (fun he => hle (hmax (congrArg UInt8.toNat he)))
      · exact absurd hlen h
    · have hlen := @utf8SeqLen_three (a :: s) _ _ _ rfl rfl rfl htwo hthree
      split_ifs at hlen with htail
      · obtain ⟨hb, hb', hc, hc', hmin, hmax⟩ := htail
        obtain ⟨b, t, rfl⟩ := @eq_cons_of_byteAt s hb
        obtain ⟨c, t, rfl⟩ := @eq_cons_of_byteAt t hc
        rw [hlen]
        exact .three (hle htwo) (hle hthree) ⟨hle hb, hle hb'⟩ ⟨hle hc, hle hc'⟩
          (fun he => hle (hmin (congrArg UInt8.toNat he)))
          (fun he => hle (hmax (congrArg UInt8.toNat he)))
      · exact absurd hlen h
  · have hlen := @utf8SeqLen_two (a :: s) _ _ rfl rfl hlow htwo
    split_ifs at hlen with htail
    · obtain ⟨hb, hb'⟩ := htail
      obtain ⟨b, t, rfl⟩ := @eq_cons_of_byteAt s hb
      rw [hlen]
      exact .two (hle hlow) (hle htwo) ⟨hle hb, hle hb'⟩
    · exact absurd hlen h

/-- What `ctrl_seq_len()` finds: one byte, or the two that spell a C1 control. -/
theorem ctrlSeqLen_eq_some {b cp : UInt8} {s : List UInt8} {n : ℕ}
    (h : ctrlSeqLen (b :: s) = some (n, cp)) :
    (n = 1 ∧ cp = b ∧ IsCtrlByte b) ∨ (n = 2 ∧ ∃ t, s = cp :: t ∧ SpellsCtrl b cp) := by
  unfold ctrlSeqLen at h
  have hfst : byteAt (b :: s) 0 = b := rfl
  rw [hfst] at h
  split_ifs at h with hbyte htwo
  · rw [Option.some.injEq, Prod.mk.injEq] at h
    exact Or.inl ⟨h.1.symm, h.2.symm, hbyte⟩
  · rw [Option.some.injEq, Prod.mk.injEq] at h
    obtain ⟨rfl, rfl⟩ := h
    obtain ⟨hlead, hlow, hhigh⟩ := htwo
    cases s with
    | nil => exact absurd (show (0x80 : UInt8) ≤ 0 from hlow) (by decide)
    | cons y t => exact Or.inr ⟨rfl, t, rfl, hlead, hlow, hhigh⟩

theorem encode_ascii {b : UInt8} (h : b < 0x80) : encode (Char.ofNat b.toNat) = [b] := by
  simp only [UInt8.lt_iff_toNat_lt, UInt8.reduceToNat] at h
  rw [encode_ofNat (by omega), if_pos (by omega), ofNat_eq rfl]

theorem encode_c1 {a b : UInt8} (h : SpellsCtrl a b) :
    encode (Char.ofNat b.toNat) = [a, b] := by
  obtain ⟨ha, hlow, hhigh⟩ := h
  simp only [UInt8.le_iff_toNat_le, ← UInt8.toNat_inj, UInt8.reduceToNat] at ha hlow hhigh
  rw [encode_ofNat (by omega), if_neg (by omega), if_pos (by omega), @ofNat_eq a _ (by omega),
    @ofNat_eq b _ (by omega)]

theorem flatMap_encode_ascii {bs : List UInt8} (h : ∀ b ∈ bs, b < 0x80) :
    (bs.map fun b => Char.ofNat b.toNat).flatMap encode = bs := by
  induction bs with
  | nil => rfl
  | cons b bs ih =>
    obtain ⟨hb, hbs⟩ := List.forall_mem_cons.mp h
    rw [List.map_cons, List.flatMap_cons, encode_ascii hb, ih hbs, List.singleton_append]

theorem hexValue_hexDigit {n : ℕ} (h : n < 16) :
    hexDigit n < 0x80 ∧ hexValue (Char.ofNat (hexDigit n).toNat) = some n := by
  revert n
  decide

/-- What is written is UTF-8, and before the closing quote it reads as the string does. -/
def ReadsBack (keep : Char → Prop) (written p : List UInt8) : Prop :=
  ∃ chars cs, written = chars.flatMap encode ∧ parseBody (chars ++ ['"']) = some cs ∧
    Reads keep p cs

theorem readsBack_nil (keep : Char → Prop) : ReadsBack keep [] [] :=
  ⟨[], [], rfl, parseBody_quote, .nil⟩

theorem ReadsBack.escape {keep : Char → Prop} {written p q : List UInt8} (c : UInt8)
    (h : ReadsBack keep written p)
    (hreads : ∀ cs, Reads keep p cs → Reads keep q (Char.ofNat c.toNat :: cs)) :
    ReadsBack keep (jsonEscape c ++ written) q := by
  obtain ⟨chars, cs, rfl, hparse, hrest⟩ := h
  have hhigh : c.toNat / 16 < 16 := by
    have := c.toNat_lt
    omega
  have hlow : c.toNat % 16 < 16 := Nat.mod_lt _ (by decide)
  obtain ⟨hhighByte, hhighValue⟩ := hexValue_hexDigit hhigh
  obtain ⟨hlowByte, hlowValue⟩ := hexValue_hexDigit hlow
  refine ⟨(jsonEscape c).map (fun b => Char.ofNat b.toNat) ++ chars, Char.ofNat c.toNat :: cs,
    ?_, ?_, hreads cs hrest⟩
  · rw [List.flatMap_append, flatMap_encode_ascii]
    simp [jsonEscape, hhighByte, hlowByte]
  · have hvalue : c.toNat / 16 * 16 + c.toNat % 16 = c.toNat := by omega
    have hlt : c.toNat / 16 * 16 + c.toNat % 16 < 256 := hvalue.symm ▸ c.toNat_lt
    have hparsed := parseBody_unicode hhighValue hlowValue hlt (chars ++ ['"'])
    rw [hparse, hvalue] at hparsed
    exact hparsed

theorem ReadsBack.plain {keep : Char → Prop} {written p : List UInt8} {c : Char} (hkeep : keep c)
    (hquote : c ≠ '"') (hslash : c ≠ '\\') (hctrl : ¬ c < ' ') (h : ReadsBack keep written p) :
    ReadsBack keep (encode c ++ written) (encode c ++ p) := by
  obtain ⟨chars, cs, rfl, hparse, hrest⟩ := h
  refine ⟨c :: chars, c :: cs, by rw [List.flatMap_cons], ?_, .char hkeep hrest⟩
  rw [List.cons_append, parseBody_plain hquote hslash hctrl, hparse, Option.map_some]

/-- A quote or a backslash behind a backslash. -/
theorem ReadsBack.quoted {keep : Char → Prop} {written p : List UInt8} {b : UInt8}
    (hb : b = 0x22 ∨ b = 0x5c) (hkeep : keep (Char.ofNat b.toNat)) (h : ReadsBack keep written p) :
    ReadsBack keep (0x5c :: b :: written) (b :: p) := by
  obtain ⟨chars, cs, rfl, hparse, hrest⟩ := h
  have hascii : b < 0x80 := by rcases hb with rfl | rfl <;> decide
  have hencode := encode_ascii hascii
  refine ⟨'\\' :: Char.ofNat b.toNat :: chars, Char.ofNat b.toNat :: cs, ?_, ?_, ?_⟩
  · rw [List.flatMap_cons, List.flatMap_cons, hencode]
    rfl
  · have hchar : Char.ofNat b.toNat = '"' ∨ Char.ofNat b.toNat = '\\' := by
      rcases hb with rfl | rfl
      · exact Or.inl rfl
      · exact Or.inr rfl
    rw [List.cons_append, List.cons_append, parseBody_escaped hchar, hparse, Option.map_some]
  · have hread := Reads.char hkeep hrest
    rwa [hencode] at hread

/-- A printable sequence starts with no quote, no backslash and no control. -/
theorem printable_of_encode {c : Char} {b : UInt8} {s : List UInt8} (h : encode c = b :: s)
    (hquote : ¬ (b = 0x22 ∨ b = 0x5c)) (hctrl : ¬ IsCtrlByte b) :
    c ≠ '"' ∧ c ≠ '\\' ∧ ¬ c < ' ' := by
  refine ⟨?_, ?_, fun hlt => ?_⟩
  · rintro rfl
    exact hquote (Or.inl (List.cons.inj h).1.symm)
  · rintro rfl
    exact hquote (Or.inr (List.cons.inj h).1.symm)
  · have hlt' : c.val.toNat < 0x20 := hlt
    unfold encode String.utf8EncodeChar at h
    simp only at h
    rw [if_pos (by omega)] at h
    refine hctrl (Or.inl ?_)
    rw [← (List.cons.inj h).1, UInt8.lt_iff_toNat_lt, toNat_ofNat_of_lt (by omega)]
    exact hlt'

theorem printJsonBody_readsBack (p : List UInt8) :
    ReadsBack (fun _ => True) (printJsonBody p) p := by
  induction p using printJsonBody.induct with
  | case1 =>
    rw [printJsonBody]
    exact readsBack_nil _
  | case2 b s n cp hctrl ih =>
    rw [printJsonBody, hctrl]
    rcases ctrlSeqLen_eq_some hctrl with ⟨rfl, rfl, hbyte⟩ | ⟨rfl, t, rfl, hspells⟩
    · have hascii : cp < 0x80 := by
        simp only [IsCtrlByte, UInt8.lt_iff_toNat_lt, ← UInt8.toNat_inj, UInt8.reduceToNat]
          at hbyte ⊢
        omega
      refine ih.escape cp fun cs hcs => ?_
      have hread := Reads.char (c := Char.ofNat cp.toNat) trivial hcs
      rwa [encode_ascii hascii] at hread
    · refine ih.escape cp fun cs hcs => ?_
      have hread := Reads.char (c := Char.ofNat cp.toNat) trivial hcs
      rwa [encode_c1 hspells] at hread
  | case3 b s hctrl hquote ih =>
    rw [printJsonBody, hctrl]
    simp only
    rw [if_pos hquote]
    exact ih.quoted hquote trivial
  | case4 b s hctrl hquote n hn ih =>
    obtain ⟨c, hc⟩ := exists_encode (wellFormed_of_utf8SeqLen hn)
    have htake : (b :: s).take n = encode c := hc.symm
    have hlen : n = n - 1 + 1 := by omega
    have hhead : encode c = b :: s.take (n - 1) := by rw [← htake, hlen]; rfl
    have hsplit : b :: s = encode c ++ s.drop (n - 1) := by
      rw [hhead, List.cons_append, List.take_append_drop]
    obtain ⟨h₁, h₂, h₃⟩ := printable_of_encode hhead hquote (ctrlSeqLen_eq_none_iff.mp hctrl).1
    have hbody : printJsonBody (b :: s) = encode c ++ printJsonBody (s.drop (n - 1)) := by
      rw [printJsonBody, hctrl]
      simp only
      rw [if_neg hquote, if_pos hn]
      exact congrArg (· ++ _) htake
    have hread := ih.plain trivial h₁ h₂ h₃
    rw [← hbody, ← hsplit] at hread
    exact hread
  | case5 b s hctrl hquote n hn ih =>
    rw [printJsonBody, hctrl]
    simp only
    rw [if_neg hquote, if_neg hn]
    refine ih.escape b fun cs hcs => .byte (fun c _ hpre => ?_) hcs
    obtain ⟨t, ht⟩ := hpre
    have hlen := utf8SeqLen_of_wellFormed (wellFormed_encode c) t
    rw [ht] at hlen
    have hpos : 0 < (encode c).length := List.length_pos_iff.mpr (encode_ne_nil c)
    omega

theorem printJsonStr_readsBack (s : CString) :
    ∃ chars cs, printJsonStr s = chars.flatMap encode ∧ parse chars = some cs ∧
      Reads (fun _ => True) s.bytes cs := by
  obtain ⟨chars, cs, hwritten, hparse, hreads⟩ := printJsonBody_readsBack s.bytes
  have hquote : encode '"' = [0x22] := rfl
  refine ⟨'"' :: (chars ++ ['"']), cs, ?_, hparse, hreads⟩
  rw [printJsonStr, hwritten, List.flatMap_cons, List.flatMap_append, hquote]
  simp [hquote]

def IsControl (c : Char) : Prop := c < ' ' ∨ '\x7f' ≤ c ∧ c ≤ '\u009f'

/-- The three renderings: on the terminal no control is left and no escape is cut, and a JSON
reader gets every character of the name, and every other byte as the code point of its value. -/
theorem rendered_without_controls (s : CString) :
    (∀ n, ∃ out k, sanitizeCtrl s (n + 1) = some out ∧ out.length ≤ n ∧ 0 ∉ out ∧
      hasCtrl out = false ∧ out = ((pieces s.bytes).take k).flatten ∧
      (k = (pieces s.bytes).length ∨
        ∃ x, (pieces s.bytes)[k]? = some x ∧ n < out.length + x.length) ∧
      (4 * s.bytes.length ≤ n → out = (pieces s.bytes).flatten)) ∧
    (hasCtrl s.bytes = false → ∀ outLen cols out,
      ellipsizePath s.bytes outLen cols = some out → 0 ∉ out ∧ hasCtrl out = false) ∧
    ∃ chars cs, printJsonStr s = chars.flatMap encode ∧ parse chars = some cs ∧
      Reads (fun _ => True) s.bytes cs ∧
      ∀ before c after, s.bytes = before ++ (encode c ++ after) → ∃ cs₁ cs₂, cs = cs₁ ++ c :: cs₂ ∧
        Reads (fun _ => True) before cs₁ ∧ Reads (fun _ => True) after cs₂ := by
  refine ⟨fun n => ?_, fun hclean outLen cols out hout => ?_, ?_⟩
  · obtain ⟨hle, k, hk, hend⟩ := fitting_spec n (pieces s.bytes)
    have hclean : NoCtrl (fitting n (pieces s.bytes)) :=
      (noCtrl_pieces s.bytes).of_initial (fitting_initial n _)
    refine ⟨_, k, sanitizeCtrl_eq s n.succ_pos, hle, hclean.zero_notMem,
      hasCtrl_eq_false_iff.mpr hclean, hk, hend, fun hroom => ?_⟩
    exact fitting_of_le ((length_pieces_le s.bytes).trans hroom)
  · have hclean' := noCtrl_ellipsizePath (hasCtrl_eq_false_iff.mp hclean) hout
    exact ⟨hclean'.zero_notMem, hasCtrl_eq_false_iff.mpr hclean'⟩
  · obtain ⟨chars, cs, hwritten, hparse, hreads⟩ := printJsonStr_readsBack s
    exact ⟨chars, cs, hwritten, hparse, hreads, fun before c after hs => hreads.split trivial hs⟩

/-- A C1 control is read as its one code point, not as one for each of its two bytes. -/
theorem c1_control_reads_as_one :
    ¬ ∃ chars cs, printJsonStr ⟨[0xc2, 0x85], by decide⟩ = chars.flatMap encode ∧
      parse chars = some cs ∧ Reads (fun c => ¬ IsControl c) [0xc2, 0x85] cs := by
  rintro ⟨chars, cs, hwritten, hparse, hreads⟩
  have hnext : encode '\u0085' = [0xc2, 0x85] := rfl
  have hchars : chars = ['"', '\\', 'u', '0', '0', '8', '5', '"'] := by
    have hbytes : printJsonStr ⟨[0xc2, 0x85], by decide⟩ =
        [0x22, 0x5c, 0x75, 0x30, 0x30, 0x38, 0x35, 0x22] := by
      simp [printJsonStr, printJsonBody, ctrlSeqLen, byteAt, jsonEscape, hexDigit]
    exact flatMap_encode_inj (hwritten.symm.trans hbytes)
  have hone : cs = ['\u0085'] := by
    have hunicode := parseBody_unicode (rfl : hexValue '8' = some 8) (rfl : hexValue '5' = some 5)
      (by decide) ['"']
    rw [hchars] at hparse
    exact Option.some.inj (hparse.symm.trans hunicode)
  generalize hs : ([0xc2, 0x85] : List UInt8) = p at hreads
  cases hreads with
  | nil => cases hs
  | @char c s cs hkeep rest =>
    rw [← List.append_nil [_, _], ← hnext] at hs
    obtain ⟨rfl, -⟩ := encode_append_inj hs
    exact hkeep (Or.inr (by decide))
  | @byte b s cs hnone rest =>
    obtain ⟨rfl, -⟩ := List.cons.inj hs
    exact absurd (List.cons.inj hone).1 (by decide)

end Oans
