import Mathlib.Tactic

/-!
# UTF-8 in strings of any bytes

Which byte sequences encode a character, as ranges of bytes; and how a string of any bytes reads,
character by character where one is encoded and byte by byte where none is. An encoding never
starts with a byte that continues one, so the characters of a string do not overlap.
-/

namespace Utf8

def encode (c : Char) : List UInt8 := String.utf8EncodeChar c

def IsTail (b : UInt8) : Prop := 0x80 ≤ b ∧ b ≤ 0xbf

instance (b : UInt8) : Decidable (IsTail b) := inferInstanceAs (Decidable (_ ∧ _))

/-- The byte sequences that encode a character: no overlong form, no surrogate, and nothing past
U+10FFFF. -/
inductive WellFormed : List UInt8 → Prop
  | one {a : UInt8} (ha : a < 0x80) : WellFormed [a]
  | two {a b : UInt8} (ha : 0xc2 ≤ a) (ha' : a ≤ 0xdf) (hb : IsTail b) : WellFormed [a, b]
  | three {a b c : UInt8} (ha : 0xe0 ≤ a) (ha' : a ≤ 0xef) (hb : IsTail b) (hc : IsTail c)
      (hlow : a = 0xe0 → 0xa0 ≤ b) (hhigh : a = 0xed → b ≤ 0x9f) : WellFormed [a, b, c]
  | four {a b c d : UInt8} (ha : 0xf0 ≤ a) (ha' : a ≤ 0xf4) (hb : IsTail b) (hc : IsTail c)
      (hd : IsTail d) (hlow : a = 0xf0 → 0x90 ≤ b) (hhigh : a = 0xf4 → b ≤ 0x8f) :
      WellFormed [a, b, c, d]

theorem toNat_ofNat_of_lt {n : ℕ} (h : n < 256) : (UInt8.ofNat n).toNat = n := by
  rw [UInt8.toNat_ofNat']
  exact Nat.mod_eq_of_lt h

theorem valid_toNat (c : Char) :
    c.val.toNat < 0xd800 ∨ 0xdfff < c.val.toNat ∧ c.val.toNat < 0x110000 := by
  have := c.valid
  simp only [UInt32.isValidChar, Nat.isValidChar] at this
  omega

theorem wellFormed_encode (c : Char) : WellFormed (encode c) := by
  have hvalid := valid_toNat c
  unfold encode String.utf8EncodeChar
  simp only
  generalize c.val.toNat = v at hvalid
  split_ifs with h₁ h₂ h₃
  · have ha := toNat_ofNat_of_lt (show v < 256 by omega)
    refine .one ?_
    simp only [UInt8.lt_iff_toNat_lt, ha, UInt8.reduceToNat]
    omega
  · have ha := toNat_ofNat_of_lt (show v / 64 % 0x20 + 0xc0 < 256 by omega)
    have hb := toNat_ofNat_of_lt (show v % 0x40 + 0x80 < 256 by omega)
    refine .two ?_ ?_ ⟨?_, ?_⟩ <;>
      simp only [UInt8.le_iff_toNat_le, ha, hb, UInt8.reduceToNat] <;> omega
  · have ha := toNat_ofNat_of_lt (show v / 4096 % 0x10 + 0xe0 < 256 by omega)
    have hb := toNat_ofNat_of_lt (show v / 64 % 0x40 + 0x80 < 256 by omega)
    have hc := toNat_ofNat_of_lt (show v % 0x40 + 0x80 < 256 by omega)
    refine .three ?_ ?_ ⟨?_, ?_⟩ ⟨?_, ?_⟩ ?_ ?_ <;>
      simp only [UInt8.le_iff_toNat_le, ← UInt8.toNat_inj, ha, hb, hc, UInt8.reduceToNat] <;>
      omega
  · have ha := toNat_ofNat_of_lt (show v / 262144 % 0x08 + 0xf0 < 256 by omega)
    have hb := toNat_ofNat_of_lt (show v / 4096 % 0x40 + 0x80 < 256 by omega)
    have hc := toNat_ofNat_of_lt (show v / 64 % 0x40 + 0x80 < 256 by omega)
    have hd := toNat_ofNat_of_lt (show v % 0x40 + 0x80 < 256 by omega)
    refine .four ?_ ?_ ⟨?_, ?_⟩ ⟨?_, ?_⟩ ⟨?_, ?_⟩ ?_ ?_ <;>
      simp only [UInt8.le_iff_toNat_le, ← UInt8.toNat_inj, ha, hb, hc, hd, UInt8.reduceToNat] <;>
      omega

/-- The encoding of a code point, with the checks on it left to arithmetic. -/
theorem encode_ofNat {v : ℕ} (hv : v < 0xd800 ∨ 0xdfff < v ∧ v < 0x110000) :
    encode (Char.ofNat v) =
      if v ≤ 0x7f then [UInt8.ofNat v]
      else if v ≤ 0x7ff then [UInt8.ofNat (v / 64 % 0x20 + 0xc0), UInt8.ofNat (v % 0x40 + 0x80)]
      else if v ≤ 0xffff then
        [UInt8.ofNat (v / 4096 % 0x10 + 0xe0), UInt8.ofNat (v / 64 % 0x40 + 0x80),
          UInt8.ofNat (v % 0x40 + 0x80)]
      else
        [UInt8.ofNat (v / 262144 % 0x08 + 0xf0), UInt8.ofNat (v / 4096 % 0x40 + 0x80),
          UInt8.ofNat (v / 64 % 0x40 + 0x80), UInt8.ofNat (v % 0x40 + 0x80)] := by
  have hval : (Char.ofNat v).val.toNat = v := by
    have hchar : v.isValidChar := by
      simp only [Nat.isValidChar]
      omega
    rw [Char.ofNat, dif_pos hchar]
    rfl
  unfold encode String.utf8EncodeChar
  simp only [hval]

theorem ofNat_eq {a : UInt8} {n : ℕ} (h : a.toNat = n) : UInt8.ofNat n = a := by
  rw [← h, UInt8.ofNat_toNat]

theorem exists_encode {bs : List UInt8} (h : WellFormed bs) : ∃ c, encode c = bs := by
  cases h with
  | @one a ha =>
    simp only [UInt8.lt_iff_toNat_lt, UInt8.reduceToNat] at ha
    refine ⟨Char.ofNat a.toNat, ?_⟩
    rw [encode_ofNat (by omega), if_pos (by omega), ofNat_eq rfl]
  | @two a b ha ha' hb =>
    obtain ⟨hb, hb'⟩ := hb
    simp only [UInt8.le_iff_toNat_le, UInt8.reduceToNat] at ha ha' hb hb'
    refine ⟨Char.ofNat ((a.toNat - 0xc0) * 64 + (b.toNat - 0x80)), ?_⟩
    rw [encode_ofNat (by omega), if_neg (by omega), if_pos (by omega),
      @ofNat_eq a _ (by omega), @ofNat_eq b _ (by omega)]
  | @three a b c ha ha' hb hc hlow hhigh =>
    obtain ⟨hb, hb'⟩ := hb
    obtain ⟨hc, hc'⟩ := hc
    simp only [UInt8.le_iff_toNat_le, ← UInt8.toNat_inj, UInt8.reduceToNat] at *
    refine ⟨Char.ofNat ((a.toNat - 0xe0) * 4096 + (b.toNat - 0x80) * 64 + (c.toNat - 0x80)), ?_⟩
    rw [encode_ofNat (by omega), if_neg (by omega), if_neg (by omega), if_pos (by omega),
      @ofNat_eq a _ (by omega), @ofNat_eq b _ (by omega), @ofNat_eq c _ (by omega)]
  | @four a b c d ha ha' hb hc hd hlow hhigh =>
    obtain ⟨hb, hb'⟩ := hb
    obtain ⟨hc, hc'⟩ := hc
    obtain ⟨hd, hd'⟩ := hd
    simp only [UInt8.le_iff_toNat_le, ← UInt8.toNat_inj, UInt8.reduceToNat] at *
    refine ⟨Char.ofNat ((a.toNat - 0xf0) * 262144 + (b.toNat - 0x80) * 4096 +
      (c.toNat - 0x80) * 64 + (d.toNat - 0x80)), ?_⟩
    rw [encode_ofNat (by omega), if_neg (by omega), if_neg (by omega), if_neg (by omega),
      @ofNat_eq a _ (by omega), @ofNat_eq b _ (by omega), @ofNat_eq c _ (by omega),
      @ofNat_eq d _ (by omega)]

theorem encode_ne_nil (c : Char) : encode c ≠ [] := String.utf8EncodeChar_ne_nil

/-- An encoding starts with a byte that continues none, and goes on with bytes that do. -/
theorem encode_eq_cons (c : Char) :
    ∃ b s, encode c = b :: s ∧ ¬ IsTail b ∧ ∀ x ∈ s, IsTail x := by
  have hlow : ∀ b : UInt8, b < 0x80 ∨ 0xc2 ≤ b → ¬ IsTail b := by
    intro b hb htail
    obtain ⟨h, h'⟩ := htail
    simp only [UInt8.lt_iff_toNat_lt, UInt8.le_iff_toNat_le, UInt8.reduceToNat] at hb h h'
    omega
  have hlead : ∀ {a k : UInt8}, 0xc2 ≤ k → k ≤ a → ¬ IsTail a :=
    fun hk ha => hlow _ (Or.inr (UInt8.le_trans hk ha))
  have h := wellFormed_encode c
  generalize encode c = bs at h
  cases h with
  | one ha => exact ⟨_, _, rfl, hlow _ (Or.inl ha), by simp⟩
  | two ha _ hb => exact ⟨_, _, rfl, hlead (by decide) ha, by simpa using hb⟩
  | three ha _ hb hc => exact ⟨_, _, rfl, hlead (by decide) ha, by simpa using ⟨hb, hc⟩⟩
  | four ha _ hb hc hd => exact ⟨_, _, rfl, hlead (by decide) ha, by simpa using ⟨hb, hc, hd⟩⟩

theorem encode_append_inj {c d : Char} {s t : List UInt8} (h : encode c ++ s = encode d ++ t) :
    c = d ∧ s = t := by
  have hdecode : ∀ (c : Char) (s : List UInt8),
      ByteArray.utf8DecodeChar? (encode c ++ s).toByteArray 0 = some c := by
    intro c s
    rw [List.toByteArray_append]
    exact ByteArray.utf8DecodeChar?_utf8EncodeChar_append
  have hc := hdecode c s
  rw [h, hdecode d t, Option.some.injEq] at hc
  subst hc
  exact ⟨rfl, List.append_cancel_left h⟩

theorem flatMap_encode_inj {cs ds : List Char} (h : cs.flatMap encode = ds.flatMap encode) :
    cs = ds := by
  induction cs generalizing ds with
  | nil =>
    cases ds with
    | nil => rfl
    | cons d ds => simp [encode_ne_nil] at h
  | cons c cs ih =>
    cases ds with
    | nil => simp [encode_ne_nil] at h
    | cons d ds =>
      rw [List.flatMap_cons, List.flatMap_cons] at h
      obtain ⟨rfl, hrest⟩ := encode_append_inj h
      rw [ih hrest]

theorem encode_of_lt {c : Char} (h : c.toNat < 0x80) : encode c = [UInt8.ofNat c.toNat] := by
  have hval : c.val.toNat ≤ 127 := by
    have : c.toNat = c.val.toNat := rfl
    omega
  unfold encode String.utf8EncodeChar
  simp only [if_pos hval]
  rfl

theorem le_of_mem_encode {c : Char} {b : UInt8} (h : 0x80 ≤ c.toNat) (hb : b ∈ encode c) :
    0x80 ≤ b.toNat := by
  have hwell := wellFormed_encode c
  generalize hbs : encode c = bs at hb hwell
  have htail : ∀ {x : UInt8}, IsTail x → 0x80 ≤ x.toNat := fun hx => by
    simpa [UInt8.le_iff_toNat_le] using hx.1
  have hlead : ∀ {x k : UInt8}, 0x80 ≤ k.toNat → k ≤ x → 0x80 ≤ x.toNat := fun hk hx =>
    hk.trans (UInt8.le_iff_toNat_le.mp hx)
  cases hwell with
  | @one a ha =>
    have hlow : a.toNat < 0x80 := by simpa [UInt8.lt_iff_toNat_lt] using ha
    have hchar : (Char.ofNat a.toNat).toNat = a.toNat := by
      have hvalid : a.toNat.isValidChar := Or.inl (by omega)
      rw [Char.ofNat, dif_pos hvalid]
      rfl
    have hc : c = Char.ofNat a.toNat := by
      have hone : encode (Char.ofNat a.toNat) = [a] := by
        rw [encode_of_lt (by omega), hchar, UInt8.ofNat_toNat]
      exact (encode_append_inj (s := []) (t := []) (by rw [hbs, hone])).1
    rw [hc, hchar] at h
    omega
  | two ha _ hb' =>
    simp only [List.mem_cons, List.not_mem_nil, or_false] at hb
    rcases hb with rfl | rfl
    · exact hlead (by decide) ha
    · exact htail hb'
  | three ha _ hb' hc =>
    simp only [List.mem_cons, List.not_mem_nil, or_false] at hb
    rcases hb with rfl | rfl | rfl
    · exact hlead (by decide) ha
    · exact htail hb'
    · exact htail hc
  | four ha _ hb' hc hd =>
    simp only [List.mem_cons, List.not_mem_nil, or_false] at hb
    rcases hb with rfl | rfl | rfl | rfl
    · exact hlead (by decide) ha
    · exact htail hb'
    · exact htail hc
    · exact htail hd

def decode (bs : List UInt8) : Option (List Char) := bs.toByteArray.utf8Decode?.map Array.toList

theorem decode_encode (cs : List Char) : decode (cs.flatMap encode) = some cs := by
  have h : (cs.flatMap encode).toByteArray = cs.utf8Encode := rfl
  rw [decode, h, List.utf8Decode?_utf8Encode]
  simp

theorem decode_eq_some {bs : List UInt8} {cs : List Char} :
    decode bs = some cs ↔ bs = cs.flatMap encode := by
  constructor
  · intro h
    obtain ⟨chars, hchars, rfl⟩ := Option.map_eq_some_iff.mp h
    have hsome : bs.toByteArray.utf8Decode?.isSome := by rw [hchars]; rfl
    have hget := ByteArray.utf8Encode_get_utf8Decode? (h := hsome)
    have hchars' : bs.toByteArray.utf8Decode?.get hsome = chars := by simp [hchars]
    rw [hchars'] at hget
    have hbytes : (chars.toList.flatMap encode).toByteArray = bs.toByteArray := hget
    exact (List.toByteArray_inj.mp hbytes).symm
  · rintro rfl
    exact decode_encode cs

/-- How a string of any bytes reads: as the characters of `keep` that it holds, and as one
character for each other byte. -/
inductive Reads (keep : Char → Prop) : List UInt8 → List Char → Prop
  | nil : Reads keep [] []
  | char {c : Char} {s : List UInt8} {cs : List Char} (hkeep : keep c) (rest : Reads keep s cs) :
      Reads keep (encode c ++ s) (c :: cs)
  | byte {b : UInt8} {s : List UInt8} {cs : List Char}
      (hnone : ∀ c, keep c → ¬ encode c <+: b :: s) (rest : Reads keep s cs) :
      Reads keep (b :: s) (Char.ofNat b.toNat :: cs)

theorem Reads.eq_nil {keep : Char → Prop} {cs : List Char} (h : Reads keep [] cs) : cs = [] := by
  generalize hs : ([] : List UInt8) = s at h
  cases h with
  | nil => rfl
  | char => simp [encode_ne_nil] at hs
  | byte => cases hs

/-- A character held anywhere in a string is read there, whatever stands around it. -/
theorem Reads.split {keep : Char → Prop} {c : Char} (hkeep : keep c) {s before after : List UInt8}
    {cs : List Char} (h : Reads keep s cs) (hs : s = before ++ (encode c ++ after)) :
    ∃ cs₁ cs₂, cs = cs₁ ++ c :: cs₂ ∧ Reads keep before cs₁ ∧ Reads keep after cs₂ := by
  induction h generalizing before with
  | nil => simp [encode_ne_nil] at hs
  | @char d s cs hd rest ih =>
    rcases List.append_eq_append_iff.mp hs with ⟨as, rfl, has⟩ | ⟨bs, hbs, hc⟩
    · obtain ⟨cs₁, cs₂, rfl, hbefore, hafter⟩ := ih has
      exact ⟨d :: cs₁, cs₂, rfl, .char hd hbefore, hafter⟩
    · cases before with
      | nil =>
        rw [List.nil_append] at hbs
        rw [← hbs] at hc
        obtain ⟨rfl, rfl⟩ := encode_append_inj hc
        exact ⟨[], cs, rfl, .nil, rest⟩
      | cons x before =>
        -- a character that ended inside this one would start with a byte that continues it
        obtain ⟨b, t, hb, hlead, -⟩ := encode_eq_cons c
        obtain ⟨b', t', hb', -, htail⟩ := encode_eq_cons d
        rw [hb', List.cons_append, List.cons.injEq] at hbs
        cases bs with
        | nil =>
          rw [List.append_nil] at hbs
          rw [List.nil_append] at hc
          obtain ⟨cs₁, cs₂, rfl, hbefore, hafter⟩ := @ih [] hc.symm
          obtain rfl := hbefore.eq_nil
          refine ⟨[d], cs₂, rfl, ?_, hafter⟩
          have hx : x :: before = encode d ++ [] := by rw [hb', ← hbs.1, hbs.2, List.append_nil]
          exact hx ▸ .char hd .nil
        | cons y bs =>
          rw [hb, List.cons_append, List.cons_append, List.cons.injEq] at hc
          refine absurd (htail y ?_) (hc.1 ▸ hlead)
          rw [hbs.2]
          simp
  | @byte b s cs hnone rest ih =>
    cases before with
    | nil =>
      refine absurd ?_ (hnone c hkeep)
      rw [hs, List.nil_append]
      exact List.prefix_append _ _
    | cons x before =>
      rw [List.cons_append, List.cons.injEq] at hs
      obtain ⟨rfl, hs⟩ := hs
      obtain ⟨cs₁, cs₂, rfl, hbefore, hafter⟩ := ih hs
      refine ⟨Char.ofNat b.toNat :: cs₁, cs₂, rfl, .byte (fun d hd hpre => ?_) hbefore, hafter⟩
      refine hnone d hd (hpre.trans ?_)
      rw [hs]
      exact List.prefix_append (b :: before) _

end Utf8
