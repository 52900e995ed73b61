import Mathlib.Data.List.TakeWhile
import Mathlib.Tactic

/-!
# Sizes on the command line

`parse_size()` takes a decimal number with at most one suffix letter. Neither the number nor what
the suffix makes of it wraps.
-/

namespace Oans

inductive SizeError
  | noNumber
  | unknownSuffix (c : Char)
  | oneSuffix
  | tooLarge
  deriving DecidableEq, Repr

/-- The cases of the `switch`, each of which falls through to the next. -/
def sizeCases : List Char := ['e', 'p', 't', 'g', 'm', 'k', 'b']

def sizeMult (c : Char) : Option ℕ :=
  match sizeCases.dropWhile fun d => decide (d ≠ c) with
  | [] => none
  | cases => some (cases.foldl (fun mult d => if d = 'b' then mult else mult * 1024) 1)

def ULLONG_MAX : ℕ := 2 ^ 64 - 1

def strtoull (digits : List Char) : Option ℕ :=
  let v := Nat.ofDigitChars 10 digits 0
  if ULLONG_MAX < v then none else some v

def scaledSize (digits : List Char) (mult : ℕ) : Except SizeError ℕ :=
  match strtoull digits with
  | none => .error .tooLarge
  | some v => if ULLONG_MAX / mult < v then .error .tooLarge else .ok (v * mult % 2 ^ 64)

def parseSize (s : List Char) : Except SizeError ℕ :=
  let digits := s.takeWhile Char.isDigit
  if digits = [] then .error .noNumber
  else
    match s.dropWhile Char.isDigit with
    | [] => scaledSize digits 1
    | c :: rest =>
      match sizeMult c.toLower with
      | none => .error (.unknownSuffix c)
      | some mult => if rest ≠ [] then .error .oneSuffix else scaledSize digits mult

/-- The suffix letters, each worth 1024 times the one before it. -/
def sizeLetters : List Char := ['b', 'k', 'm', 'g', 't', 'p', 'e']

structure SizeText (s : List Char) (n : ℕ) : Prop where
  spelled : ∃ digits suffix k, s = digits ++ suffix ∧ digits ≠ [] ∧
    (∀ c ∈ digits, c.isDigit = true) ∧
    (suffix = [] ∧ k = 0 ∨ ∃ c, suffix = [c] ∧ sizeLetters[k]? = some c.toLower) ∧
    n = Nat.ofDigitChars 10 digits 0 * 1024 ^ k
  fits : n < 2 ^ 64

theorem sizeMult_of_mem {c : Char} (h : c ∈ sizeLetters) :
    sizeMult c = some (1024 ^ sizeLetters.idxOf c) := by
  simp only [sizeLetters, List.mem_cons, List.not_mem_nil, or_false] at h
  rcases h with rfl | rfl | rfl | rfl | rfl | rfl | rfl <;> rfl

theorem sizeMult_of_notMem {c : Char} (h : c ∉ sizeLetters) : sizeMult c = none := by
  have hnone : sizeCases.dropWhile (fun d => decide (d ≠ c)) = [] := by
    rw [List.dropWhile_eq_nil_iff]
    intro d hd
    refine decide_eq_true fun heq => h ?_
    subst heq
    simp only [sizeCases, sizeLetters, List.mem_cons, List.not_mem_nil, or_false] at hd ⊢
    tauto
  rw [sizeMult, hnone]

theorem sizeMult_eq_some_iff {c : Char} {mult : ℕ} : sizeMult c = some mult ↔
    ∃ k, sizeLetters[k]? = some c ∧ mult = 1024 ^ k := by
  have hnodup : sizeLetters.Nodup := by decide
  constructor
  · intro h
    by_cases hmem : c ∈ sizeLetters
    · rw [sizeMult_of_mem hmem] at h
      exact ⟨_, List.getElem?_idxOf hmem, (Option.some.inj h).symm⟩
    · rw [sizeMult_of_notMem hmem] at h
      cases h
  · rintro ⟨k, hk, rfl⟩
    obtain ⟨hlt, hget⟩ := List.getElem?_eq_some_iff.mp hk
    rw [sizeMult_of_mem (hget ▸ List.getElem_mem hlt), ← hget, hnodup.idxOf_getElem k hlt]

theorem scaledSize_eq_ok_iff {digits : List Char} {mult n : ℕ} (hmult : 0 < mult) :
    scaledSize digits mult = .ok n ↔
      n = Nat.ofDigitChars 10 digits 0 * mult ∧ n < 2 ^ 64 := by
  unfold scaledSize strtoull
  have hmax : ULLONG_MAX + 1 = 2 ^ 64 := by decide
  generalize Nat.ofDigitChars 10 digits 0 = v
  have hdiv : ULLONG_MAX / mult < v ↔ ULLONG_MAX < v * mult := Nat.div_lt_iff_lt_mul hmult
  have hle : v ≤ v * mult := Nat.le_mul_of_pos_right v hmult
  dsimp only
  by_cases hlarge : ULLONG_MAX < v
  · rw [if_pos hlarge]
    refine iff_of_false nofun fun h => ?_
    omega
  · rw [if_neg hlarge]
    dsimp only
    by_cases hwraps : ULLONG_MAX < v * mult
    · rw [if_pos (hdiv.mpr hwraps)]
      refine iff_of_false nofun fun h => ?_
      omega
    · rw [if_neg (mt hdiv.mp hwraps), Nat.mod_eq_of_lt (by omega), Except.ok.injEq]
      constructor
      · rintro rfl
        exact ⟨rfl, by omega⟩
      · exact fun h => h.1.symm

theorem toLower_of_isDigit {c : Char} (h : c.isDigit = true) : c.toLower = c := by
  have hrange : 48 ≤ c.toNat ∧ c.toNat ≤ 57 := by
    have hval : (decide (c.val ≥ 48) && decide (c.val ≤ 57)) = true := h
    rw [Bool.and_eq_true, decide_eq_true_iff, decide_eq_true_iff] at hval
    exact hval
  have hc : Char.ofNat c.toNat = c := Char.ofNat_toNat c
  generalize c.toNat = n at hrange hc
  subst hc
  obtain ⟨hlow, hhigh⟩ := hrange
  interval_cases n <;> rfl

theorem not_isDigit_of_sizeLetter {c : Char} {k : ℕ} (h : sizeLetters[k]? = some c.toLower) :
    c.isDigit = false := by
  refine Bool.eq_false_of_not_eq_true fun hdigit => ?_
  rw [toLower_of_isDigit hdigit] at h
  have hmem := List.mem_of_getElem? h
  simp only [sizeLetters, List.mem_cons, List.not_mem_nil, or_false] at hmem
  rcases hmem with rfl | rfl | rfl | rfl | rfl | rfl | rfl <;> cases hdigit

/-- Reading a size gives `n` exactly if the text spells it and it fits 64 bits. -/
theorem parseSize_eq_ok_iff (s : List Char) (n : ℕ) : parseSize s = .ok n ↔ SizeText s n := by
  constructor
  · intro h
    unfold parseSize at h
    dsimp only at h
    split_ifs at h with hempty
    have hsplit := List.takeWhile_append_dropWhile (p := Char.isDigit) (l := s)
    have hdigits : ∀ c ∈ s.takeWhile Char.isDigit, c.isDigit = true :=
      fun c hc => List.mem_takeWhile_imp hc
    split at h
    · next hrest =>
      obtain ⟨hn, hfits⟩ := (scaledSize_eq_ok_iff Nat.one_pos).mp h
      exact ⟨⟨_, [], 0, by rw [hrest] at hsplit; exact hsplit.symm, hempty, hdigits,
        Or.inl ⟨rfl, rfl⟩, hn⟩, hfits⟩
    · next c rest hrest =>
      split at h
      · cases h
      · next mult hmult =>
        split_ifs at h with hmore
        obtain ⟨k, hk, rfl⟩ := sizeMult_eq_some_iff.mp hmult
        obtain ⟨hn, hfits⟩ := (scaledSize_eq_ok_iff (Nat.pow_pos (by decide))).mp h
        rw [hrest, not_not.mp hmore] at hsplit
        exact ⟨⟨_, [c], k, hsplit.symm, hempty, hdigits, Or.inr ⟨c, rfl, hk⟩, hn⟩, hfits⟩
  · rintro ⟨⟨digits, suffix, k, rfl, hne, hdigits, hsuffix, rfl⟩, hfits⟩
    have htake : (digits ++ suffix).takeWhile Char.isDigit = digits ∧
        (digits ++ suffix).dropWhile Char.isDigit = suffix := by
      rw [List.takeWhile_append_of_pos hdigits, List.dropWhile_append_of_pos hdigits]
      rcases hsuffix with ⟨rfl, -⟩ | ⟨c, rfl, hc⟩
      · simp
      · simp [not_isDigit_of_sizeLetter hc]
    unfold parseSize
    rw [htake.1, htake.2]
    dsimp only
    rw [if_neg hne]
    rcases hsuffix with ⟨rfl, rfl⟩ | ⟨c, rfl, hc⟩
    · exact (scaledSize_eq_ok_iff Nat.one_pos).mpr ⟨rfl, hfits⟩
    · dsimp only
      rw [sizeMult_eq_some_iff.mpr ⟨k, hc, rfl⟩]
      exact (scaledSize_eq_ok_iff (Nat.pow_pos (by decide))).mpr ⟨rfl, hfits⟩

end Oans
