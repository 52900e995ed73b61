import Oans.GlobPattern

/-!
# The expressions exclude patterns are translated to

`glob_to_regex()` writes a pattern as the text of an expression. A pattern is a string of bytes,
and a byte here is the character with its code; the text is read back by characters or by bytes.
-/

namespace Oans

open Pcre (Atom Tok Place lex)

namespace Glob

def escapeString (c : Char) : List Char :=
  if c ∈ "\\|()[]{}^$*+?.".toList then ['\\', c] else [c]

/-- The name of the POSIX class that a bracket before `s` opens. -/
def posixName (s : List Char) : Option (List Char) :=
  let name := s.tail.takeWhile Char.isAlpha
  if s.head? = some ':' ∧ name ≠ [] ∧ (s.tail.dropWhile Char.isAlpha).take 2 = [':', ']'] then
    some name
  else none

def escapeMember (c : Char) : List Char :=
  if c.isAlphanum = false ∧ c.toNat < 0x80 then ['\\', c] else [c]

/-- The loop of `append_class()`: what it appends up to the closing bracket, and how far that is
behind the characters passed over first. -/
def classLoop : ℕ → List Char → Option (List Char × ℕ)
  | _, [] => none
  | skip + 1, _ :: s => (classLoop skip s).map fun (text, n) => (text, n + 1)
  | 0, c :: s =>
    if c = ']' then some ([']'], 0)
    else
      match if c = '[' then posixName s else none with
      | some name =>
        (classLoop (name.length + 3) s).map fun (text, n) =>
          ("[:".toList ++ name ++ ":]".toList ++ text, n + 1)
      | none =>
        match if c = '\\' then s.head? else none with
        | some d => (classLoop 1 s).map fun (text, n) => (escapeMember d ++ text, n + 1)
        | none =>
          (classLoop 0 s).map fun (text, n) =>
            ((if c = '\\' ∨ c = '[' then ['\\', c] else [c]) ++ text, n + 1)

/-- What a class lists is written as, and the characters that takes: a bracket that comes first is
one of those it lists. -/
def classBody (s : List Char) : Option (List Char × ℕ) :=
  if s.head? = some ']' then
    (classLoop 0 s.tail).map fun (text, n) => ("\\]".toList ++ text, n + 2)
  else (classLoop 0 s).map fun (text, n) => (text, n + 1)

def appendClass (s : List Char) : Option (List Char × ℕ) :=
  if s.head? = some '!' ∨ s.head? = some '^' then
    (classBody s.tail).map fun (text, n) => ("[^/".toList ++ text, n + 1)
  else (classBody s).map fun (text, n) => ("(?!/)[".toList ++ text, n)

def globLoop : ℕ → List Char → Option (List Char)
  | _, [] => some []
  | skip + 1, _ :: s => globLoop skip s
  | 0, c :: s =>
    if c = '*' then
      let stars := (s.takeWhile (· == '*')).length + 1
      if stars = 1 then ("[^/]*".toList ++ ·) <$> globLoop 0 s
      else if s[stars - 1]? = some '/' then ("(?:.*/)?".toList ++ ·) <$> globLoop stars s
      else (".*".toList ++ ·) <$> globLoop (stars - 1) s
    else if c = '?' then ("[^/]".toList ++ ·) <$> globLoop 0 s
    else if c = '[' then
      match appendClass s with
      | none => none
      | some (text, n) => (text ++ ·) <$> globLoop n s
    else
      match if c = '\\' then s.head? else none with
      | some d => (escapeString d ++ ·) <$> globLoop 1 s
      | none => (escapeString c ++ ·) <$> globLoop 0 s

/-- What comes before a pattern: it is absolute, has a separator, or is for a name. -/
def anchorText (pat body : List Char) : List Char :=
  if pat.head? = some '/' then "^".toList
  else if '/' ∈ body then "^(?:.*/)?".toList
  else "(?:^|/)".toList

/-- The text a pattern is translated to, and whether it is for directories only; or why not. -/
def globToRegex (pat : List Char) : Except (List Char) (List Char × Bool) :=
  let body := pat.rdropWhile (· == '/')
  if body = [] then .error ("empty exclude pattern \"".toList ++ pat ++ "\"".toList)
  else
    match globLoop 0 body with
    | none => .error ("unterminated '[' in exclude pattern \"".toList ++ pat ++ "\"".toList)
    | some text => .ok (anchorText pat body ++ text ++ "$".toList, pat.getLast? == some '/')

/-! ### What a run of characters is translated to -/

theorem classLoop_skip (u s : List Char) :
    classLoop u.length (u ++ s) = (classLoop 0 s).map fun (text, n) => (text, n + u.length) := by
  induction u with
  | nil =>
    change classLoop 0 s = _
    cases classLoop 0 s <;> simp
  | cons c u ih =>
    rw [List.length_cons, List.cons_append, classLoop, ih]
    cases classLoop 0 s <;> simp [Nat.add_assoc]

theorem globLoop_skip (u s : List Char) : globLoop u.length (u ++ s) = globLoop 0 s := by
  induction u with
  | nil => rfl
  | cons c u ih => rwa [List.length_cons, List.cons_append, globLoop]

theorem globLoop_star {s : List Char} (h : s.head? ≠ some '*') :
    globLoop 0 ('*' :: s) = ("[^/]*".toList ++ ·) <$> globLoop 0 s := by
  have hnone : s.takeWhile (· == '*') = [] := by
    cases s with
    | nil => rfl
    | cons c s => simpa using h
  simp [globLoop, hnone]

theorem takeWhile_stars {k : ℕ} {s : List Char} (h : s.head? ≠ some '*') :
    (List.replicate k '*' ++ s).takeWhile (· == '*') = List.replicate k '*' := by
  rw [List.takeWhile_append_of_pos (by simp)]
  cases s with
  | nil => simp
  | cons c s => simpa using h

theorem globLoop_dirs (k : ℕ) (s : List Char) :
    globLoop 0 (List.replicate (k + 2) '*' ++ '/' :: s) =
      ("(?:.*/)?".toList ++ ·) <$> globLoop 0 s := by
  have hskip : globLoop (k + 2) (List.replicate (k + 1) '*' ++ '/' :: s) = globLoop 0 s := by
    have := globLoop_skip (List.replicate (k + 1) '*' ++ ['/']) s
    simpa using this
  rw [List.replicate_succ, List.cons_append, globLoop,
    takeWhile_stars (show ('/' :: s).head? ≠ some '*' by simp)]
  simp [hskip]

theorem globLoop_dstar {k : ℕ} {s : List Char} (h : s.head? ≠ some '*' ∧ s.head? ≠ some '/') :
    globLoop 0 (List.replicate (k + 2) '*' ++ s) = (".*".toList ++ ·) <$> globLoop 0 s := by
  have hskip : globLoop (k + 1) (List.replicate (k + 1) '*' ++ s) = globLoop 0 s := by
    have := globLoop_skip (List.replicate (k + 1) '*') s
    simpa using this
  have hnext : (List.replicate (k + 1) '*' ++ s)[k + 1]? ≠ some '/' := by
    rw [List.getElem?_append_right (by simp)]
    simpa [List.head?_eq_getElem?] using h.2
  rw [List.replicate_succ, List.cons_append, globLoop, takeWhile_stars h.1]
  simp [hskip, hnext]

theorem globLoop_any (s : List Char) :
    globLoop 0 ('?' :: s) = ("[^/]".toList ++ ·) <$> globLoop 0 s := by
  simp [globLoop]

theorem globLoop_escape (c : Char) (s : List Char) :
    globLoop 0 ('\\' :: c :: s) = (escapeString c ++ ·) <$> globLoop 0 s := by
  simp [globLoop]

theorem globLoop_lit {c : Char} (s : List Char)
    (hc : c ≠ '*' ∧ c ≠ '?' ∧ c ≠ '[' ∧ c ≠ '\\') :
    globLoop 0 (c :: s) = (escapeString c ++ ·) <$> globLoop 0 s := by
  simp [globLoop, hc]

theorem globLoop_class {text u s : List Char}
    (h : appendClass (u ++ s) = some (text, u.length)) :
    globLoop 0 ('[' :: (u ++ s)) = (text ++ ·) <$> globLoop 0 s := by
  rw [← globLoop_skip u s]
  simp [globLoop, h]

theorem classLoop_close (s : List Char) : classLoop 0 (']' :: s) = some ([']'], 0) := by
  simp [classLoop]

theorem posixName_eq_some {s name : List Char} :
    posixName s = some name ↔ name ≠ [] ∧ (∀ c ∈ name, c.isAlpha = true) ∧
      ∃ rest, s = ':' :: (name ++ ':' :: ']' :: rest) := by
  constructor
  · intro h
    simp only [posixName] at h
    split_ifs at h with hname
    obtain rfl := Option.some.inj h
    obtain ⟨hcolon, hne, htake⟩ := hname
    cases s with
    | nil => cases hcolon
    | cons c s =>
      obtain rfl := Option.some.inj hcolon
      rw [List.tail_cons] at htake hne ⊢
      have hsplit : s.takeWhile Char.isAlpha ++ s.dropWhile Char.isAlpha = s :=
        List.takeWhile_append_dropWhile
      refine ⟨hne, fun c hc => List.mem_takeWhile_imp hc, (s.dropWhile Char.isAlpha).drop 2, ?_⟩
      rw [← List.cons_append, ← List.singleton_append, ← List.singleton_append]
      conv_lhs => rw [← hsplit, ← List.take_append_drop 2 (s.dropWhile Char.isAlpha), htake]
      rfl
  · rintro ⟨hne, halpha, rest, rfl⟩
    have htake : (name ++ ':' :: ']' :: rest).takeWhile Char.isAlpha = name := by
      rw [List.takeWhile_append_of_pos halpha]
      simp
    have hdrop : (name ++ ':' :: ']' :: rest).dropWhile Char.isAlpha = ':' :: ']' :: rest := by
      rw [List.dropWhile_append_of_pos halpha]
      simp
    simp [posixName, htake, hdrop, hne]

theorem classLoop_posix {name : List Char} (s : List Char) (hne : name ≠ [])
    (halpha : ∀ c ∈ name, c.isAlpha = true) :
    classLoop 0 ('[' :: ':' :: (name ++ ':' :: ']' :: s)) =
      (classLoop 0 s).map fun (text, n) =>
        ('[' :: ':' :: (name ++ [':', ']']) ++ text, n + (name.length + 4)) := by
  have hname : posixName (':' :: (name ++ ':' :: ']' :: s)) = some name :=
    posixName_eq_some.mpr ⟨hne, halpha, s, rfl⟩
  have hskip := classLoop_skip (':' :: (name ++ [':', ']'])) s
  rw [show (':' :: (name ++ [':', ']'])) ++ s = ':' :: (name ++ ':' :: ']' :: s) by simp,
    show (':' :: (name ++ [':', ']'])).length = name.length + 3 by simp] at hskip
  rw [classLoop, if_neg (by decide), if_pos rfl, hname]
  simp only [hskip]
  cases classLoop 0 s <;> simp [Nat.add_assoc]

theorem classLoop_escape (c : Char) (s : List Char) :
    classLoop 0 ('\\' :: c :: s) =
      (classLoop 0 s).map fun (text, n) => (escapeMember c ++ text, n + 2) := by
  have hskip := classLoop_skip [c] s
  rw [List.singleton_append, List.length_singleton] at hskip
  rw [classLoop]
  simp only [if_neg (show ¬ '\\' = ']' by decide), if_neg (show ¬ '\\' = '[' by decide), if_true,
    List.head?_cons, hskip]
  cases classLoop 0 s <;> simp

theorem classLoop_chr {c : Char} (s : List Char) (hclose : c ≠ ']') (hslash : c ≠ '\\')
    (hname : c = '[' → posixName s = none) :
    classLoop 0 (c :: s) = (classLoop 0 s).map fun (text, n) =>
      ((if c = '[' then ['\\', c] else [c]) ++ text, n + 1) := by
  have hnone : (if c = '[' then posixName s else none) = none := by
    split_ifs with hopen
    · exact hname hopen
    · rfl
  rw [classLoop, if_neg hclose, hnone]
  simp [hslash]

/-! ### Patterns written in bytes -/

def Below (n : ℕ) (s : List Char) : Prop := ∀ c ∈ s, c.toNat < n

instance (n : ℕ) (s : List Char) : Decidable (Below n s) := List.decidableBAll _ s

/-- How characters are written in bytes: one of ASCII is its own byte, and no byte of another is
in ASCII. -/
structure Coding (enc : Char → List Char) : Prop where
  ascii : ∀ c, c.toNat < 0x80 → enc c = [c]
  high : ∀ c, 0x80 ≤ c.toNat → enc c ≠ [] ∧ ∀ d ∈ enc c, 0x80 ≤ d.toNat
  inj : ∀ s t : List Char, s.flatMap enc = t.flatMap enc → s = t

theorem lt_of_isAlphanum {c : Char} (h : c.isAlphanum = true) : c.toNat < 0x80 := by
  change (decide (c.val ≥ 'A'.val ∧ c.val ≤ 'Z'.val) || (decide (c.val ≥ 'a'.val) &&
    decide (c.val ≤ 'z'.val)) || (decide (c.val ≥ '0'.val) && decide (c.val ≤ '9'.val))) = true at h
  simp only [Bool.or_eq_true, Bool.and_eq_true, decide_eq_true_eq, UInt32.le_iff_toNat_le] at h
  have : c.toNat = c.val.toNat := rfl
  have : 'Z'.val.toNat = 90 := rfl
  have : 'z'.val.toNat = 122 := rfl
  have : '9'.val.toNat = 57 := rfl
  omega

theorem isAlphanum_of_isAlpha {c : Char} (h : c.isAlpha = true) : c.isAlphanum = true := by
  change (c.isAlpha || c.isDigit) = true
  rw [h, Bool.true_or]

theorem ascii_backslash {c : Char} (hc : c.toNat < 0x80) : Below 0x80 ['\\', c] := by
  intro d hd
  simp only [List.mem_cons, List.not_mem_nil, or_false] at hd
  rcases hd with rfl | rfl
  · decide
  · exact hc

/-- With a backslash or without one. -/
theorem ascii_ite {p : Prop} [Decidable p] {c : Char} (hc : c.toNat < 0x80) :
    Below 0x80 (if p then ['\\', c] else [c]) := by
  intro d hd
  split_ifs at hd
  · exact ascii_backslash hc d hd
  · rwa [List.mem_singleton.mp hd]

theorem ne_of_high {c d : Char} (hc : 0x80 ≤ c.toNat) (hd : d.toNat < 0x80) : c ≠ d := by
  rintro rfl
  omega

section Coding

variable {enc : Char → List Char} (henc : Coding enc)

include henc

theorem Coding.cons_ascii {c : Char} (hc : c.toNat < 0x80) (s : List Char) :
    (c :: s).flatMap enc = c :: s.flatMap enc := by
  rw [List.flatMap_cons, henc.ascii c hc, List.singleton_append]

theorem Coding.append_ascii {u : List Char} (hu : Below 0x80 u) (s : List Char) :
    (u ++ s).flatMap enc = u ++ s.flatMap enc := by
  induction u with
  | nil => rfl
  | cons c u ih =>
    rw [List.cons_append, henc.cons_ascii (hu c List.mem_cons_self),
      ih fun d hd => hu d (List.mem_cons_of_mem c hd), List.cons_append]

theorem Coding.ascii_eq {u : List Char} (hu : Below 0x80 u) : u.flatMap enc = u := by
  simpa using henc.append_ascii hu []

/-- What starts with a character of ASCII in bytes does so in characters. -/
theorem Coding.of_cons {s y : List Char} {a : Char} (ha : a.toNat < 0x80)
    (h : s.flatMap enc = a :: y) : ∃ s', s = a :: s' ∧ y = s'.flatMap enc := by
  cases s with
  | nil => cases h
  | cons c s =>
    by_cases hc : c.toNat < 0x80
    · rw [henc.cons_ascii hc] at h
      obtain ⟨rfl, rfl⟩ := List.cons.inj h
      exact ⟨s, rfl, rfl⟩
    · obtain ⟨hne, hhigh⟩ := henc.high c (by omega)
      obtain ⟨d, ds, hd⟩ := List.exists_cons_of_ne_nil hne
      rw [List.flatMap_cons, hd, List.cons_append] at h
      obtain ⟨rfl, -⟩ := List.cons.inj h
      exact absurd ha (by have := hhigh d (hd ▸ List.mem_cons_self); omega)

theorem Coding.head?_eq {s : List Char} {a : Char} (ha : a.toNat < 0x80) :
    (s.flatMap enc).head? = some a ↔ s.head? = some a := by
  constructor
  · intro h
    obtain ⟨y, hy⟩ := List.head?_eq_some_iff.mp h
    obtain ⟨s', rfl, -⟩ := henc.of_cons ha hy
    rfl
  · intro h
    obtain ⟨y, rfl⟩ := List.head?_eq_some_iff.mp h
    rw [henc.cons_ascii ha]
    rfl

theorem Coding.of_append {u s y : List Char} (hu : Below 0x80 u)
    (h : s.flatMap enc = u ++ y) : ∃ s', s = u ++ s' ∧ y = s'.flatMap enc := by
  induction u generalizing s with
  | nil => exact ⟨s, rfl, h.symm⟩
  | cons c u ih =>
    obtain ⟨s', rfl, hs'⟩ := henc.of_cons (hu c List.mem_cons_self) h
    obtain ⟨s'', rfl, hs''⟩ := ih (fun d hd => hu d (List.mem_cons_of_mem c hd)) hs'.symm
    exact ⟨s'', rfl, hs''⟩

omit henc in
theorem posixText_ascii {name : List Char} (halpha : ∀ c ∈ name, c.isAlpha = true) :
    ∀ c ∈ '[' :: ':' :: (name ++ [':', ']']), c.toNat < 0x80 := by
  intro c hc
  simp only [List.mem_cons, List.mem_append, List.not_mem_nil, or_false] at hc
  rcases hc with rfl | rfl | hc | rfl | rfl
  · decide
  · decide
  · exact lt_of_isAlphanum (isAlphanum_of_isAlpha (halpha c hc))
  · decide
  · decide

theorem Coding.opensName_iff {s : List Char} :
    OpensName s ↔ ∃ name, posixName (s.flatMap enc) = some name := by
  simp only [posixName_eq_some, OpensName]
  constructor
  · rintro ⟨name, rest, hne, halpha, rfl⟩
    refine ⟨name, hne, halpha, rest.flatMap enc, ?_⟩
    have hlow := fun c hc => posixText_ascii halpha c (List.mem_cons_of_mem '[' hc)
    simpa using henc.append_ascii hlow rest
  · rintro ⟨name, hne, halpha, y, hy⟩
    have hlow := fun c hc => posixText_ascii halpha c (List.mem_cons_of_mem '[' hc)
    obtain ⟨rest, rfl, -⟩ := henc.of_append (y := y) hlow (by simpa using hy)
    exact ⟨name, rest, hne, halpha, by simp⟩

omit henc in
theorem classLoop_high {u : List Char} (hu : ∀ c ∈ u, 0x80 ≤ c.toNat) (s : List Char) :
    classLoop 0 (u ++ s) = (classLoop 0 s).map fun (text, n) => (u ++ text, n + u.length) := by
  induction u with
  | nil =>
    change classLoop 0 s = _
    cases classLoop 0 s <;> simp
  | cons c u ih =>
    have hc := hu c List.mem_cons_self
    have hopen := ne_of_high hc (show '['.toNat < 0x80 by decide)
    rw [List.cons_append, classLoop_chr _ (ne_of_high hc (by decide)) (ne_of_high hc (by decide))
      (fun h => absurd h hopen), ih fun d hd => hu d (List.mem_cons_of_mem c hd), if_neg hopen]
    cases classLoop 0 s <;> simp [Nat.add_assoc]

omit henc in
theorem escapeString_high {c : Char} (hc : 0x80 ≤ c.toNat) : escapeString c = [c] := by
  refine if_neg fun hmem => ?_
  have hall : Below 0x80 "\\|()[]{}^$*+?.".toList := by decide
  have := hall c hmem
  omega

omit henc in
theorem globLoop_high {u : List Char} (hu : ∀ c ∈ u, 0x80 ≤ c.toNat) (s : List Char) :
    globLoop 0 (u ++ s) = (u ++ ·) <$> globLoop 0 s := by
  induction u with
  | nil => simp
  | cons c u ih =>
    have hc := hu c List.mem_cons_self
    have hne : ∀ d : Char, d.toNat < 0x80 → c ≠ d := fun d hd => ne_of_high hc hd
    rw [List.cons_append, globLoop_lit _ ⟨hne _ (by decide), hne _ (by decide),
      hne _ (by decide), hne _ (by decide)⟩, escapeString_high hc,
      ih fun d hd => hu d (List.mem_cons_of_mem c hd)]
    cases globLoop 0 s <;> simp

omit henc in
theorem escapeMember_high {c : Char} (hc : 0x80 ≤ c.toNat) : escapeMember c = [c] :=
  if_neg fun h => by omega

omit henc in
theorem escapeMember_ascii (c d : Char) (hc : c.toNat < 0x80) (hd : d ∈ escapeMember c) :
    d.toNat < 0x80 := by
  unfold escapeMember at hd
  exact ascii_ite hc d hd

omit henc in
theorem lists_escapeMember (c : Char) : Pcre.Lists (escapeMember c) [.chr c] := by
  unfold escapeMember
  split_ifs with h
  · exact Pcre.lists_escape h.1
  · refine Pcre.lists_chr ⟨?_, ?_, ?_, ?_⟩ <;>
    · rintro rfl
      exact h (by decide)

omit henc in
theorem escapeMember_head (c : Char) : (escapeMember c).head? ≠ some '^' := by
  unfold escapeMember
  split_ifs with h
  · simp
  · rw [List.head?_cons]
    intro heq
    rw [Option.some.inj heq] at h
    exact h (by decide)

/-- A class behind a backslash and a character of any length. -/
theorem Coding.classLoop_escape (c : Char) (s : List Char) :
    classLoop 0 (('\\' :: c :: s).flatMap enc) = (classLoop 0 (s.flatMap enc)).map
      fun (text, n) => ((escapeMember c).flatMap enc ++ text, n + 1 + (enc c).length) := by
  rw [henc.cons_ascii (by decide), List.flatMap_cons]
  by_cases hc : c.toNat < 0x80
  · rw [henc.ascii c hc, List.singleton_append, Glob.classLoop_escape,
      henc.ascii_eq fun d hd => escapeMember_ascii c d hc hd]
    rfl
  · obtain ⟨hne, hhigh⟩ := henc.high c (by omega)
    obtain ⟨d, ds, hd⟩ := List.exists_cons_of_ne_nil hne
    have hdhigh := hhigh d (hd ▸ List.mem_cons_self)
    rw [hd, List.cons_append, Glob.classLoop_escape,
      classLoop_high fun e he => hhigh e (hd ▸ List.mem_cons_of_mem d he), escapeMember_high hdhigh,
      escapeMember_high (c := c) (by omega)]
    cases classLoop 0 (s.flatMap enc) with
    | none => rfl
    | some found => simp [hd, Nat.add_assoc, Nat.add_comm 1]

theorem Coding.classLoop_chr {c : Char} {s : List Char} (hclose : c ≠ ']') (hslash : c ≠ '\\')
    (hname : c = '[' → ¬ OpensName s) :
    classLoop 0 ((c :: s).flatMap enc) = (classLoop 0 (s.flatMap enc)).map fun (text, n) =>
      ((if c = '[' then ['\\', c] else [c]).flatMap enc ++ text, n + (enc c).length) := by
  rw [List.flatMap_cons]
  by_cases hc : c.toNat < 0x80
  · rw [henc.ascii c hc, List.singleton_append, Glob.classLoop_chr _ hclose hslash]
    · rw [henc.ascii_eq (ascii_ite hc)]
      rfl
    · intro hopen
      cases hposix : posixName (s.flatMap enc) with
      | none => rfl
      | some name => exact absurd (henc.opensName_iff.mpr ⟨name, hposix⟩) (hname hopen)
  · rw [classLoop_high (henc.high c (by omega)).2,
      if_neg (ne_of_high (Nat.le_of_not_lt hc) (by decide))]
    simp

theorem Coding.classLoop_posix {name : List Char} (s : List Char) (hne : name ≠ [])
    (halpha : ∀ c ∈ name, c.isAlpha = true) :
    classLoop 0 (('[' :: ':' :: (name ++ ':' :: ']' :: s)).flatMap enc) =
      (classLoop 0 (s.flatMap enc)).map fun (text, n) =>
        (('[' :: ':' :: (name ++ [':', ']'])).flatMap enc ++ text, n + (name.length + 4)) := by
  have hcoded := henc.append_ascii (posixText_ascii halpha) s
  rw [henc.ascii_eq (posixText_ascii halpha)]
  have happ : ∀ v : List Char, '[' :: ':' :: (name ++ [':', ']']) ++ v =
      '[' :: ':' :: (name ++ ':' :: ']' :: v) := fun v => by simp
  rw [happ, happ] at hcoded
  rw [hcoded, Glob.classLoop_posix _ hne halpha]

/-- What the loop appends for a class lists what the class does, and it stops at the bracket that
closes it. -/
theorem Coding.classLoop_classText {s rest : List Char} {as : List Atom} (h : ClassText s as rest) :
    ∃ text u, classLoop 0 (s.flatMap enc) = some (text.flatMap enc ++ [']'], u.length) ∧
      s.flatMap enc = u ++ ']' :: rest.flatMap enc ∧ Pcre.Lists text as ∧
      (text.head? = some '^' → s.head? = some '^') := by
  induction h with
  | @close rest =>
    refine ⟨[], [], ?_, henc.cons_ascii (by decide) rest, Pcre.lists_nil, nofun⟩
    rw [henc.cons_ascii (by decide), classLoop_close]
    rfl
  | @posix name s rest as hne halpha _ ih =>
    obtain ⟨text, u, hloop, hs, hlists, -⟩ := ih
    refine ⟨'[' :: ':' :: (name ++ [':', ']']) ++ text, '[' :: ':' :: (name ++ [':', ']']) ++ u,
      ?_, ?_, (Pcre.lists_posix halpha).append hlists, fun heq => ?_⟩
    · rw [henc.classLoop_posix s hne halpha, hloop, List.flatMap_append]
      simp [Nat.add_comm, Nat.add_left_comm]
    · have hcoded := henc.append_ascii (posixText_ascii halpha) s
      rw [hs] at hcoded
      simpa using hcoded
    · simp at heq
  | @escape c s rest as _ ih =>
    obtain ⟨text, u, hloop, hs, hlists, -⟩ := ih
    refine ⟨escapeMember c ++ text, '\\' :: (enc c ++ u), ?_, ?_,
      (lists_escapeMember c).append hlists, fun heq => ?_⟩
    · rw [henc.classLoop_escape, hloop]
      simp only [Option.map_some, List.flatMap_append, List.append_assoc, List.length_cons,
        List.length_append]
      rw [Nat.add_comm (enc c).length, Nat.add_assoc, Nat.add_assoc, Nat.add_comm 1]
    · rw [henc.cons_ascii (by decide), List.flatMap_cons, hs]
      simp
    · rw [List.head?_append_of_ne_nil _ (by unfold escapeMember; split_ifs <;> simp)] at heq
      exact absurd heq (escapeMember_head c)
  | @dash s rest as _ ih =>
    obtain ⟨text, u, hloop, hs, hlists, -⟩ := ih
    refine ⟨'-' :: text, '-' :: u, ?_, ?_, Pcre.lists_dash.append hlists, by simp⟩
    · rw [henc.classLoop_chr (by decide) (by decide) (fun h => absurd h (by decide)), hloop,
        henc.ascii '-' (by decide), if_neg (by decide), henc.cons_ascii (by decide),
        henc.cons_ascii (by decide)]
      rfl
    · rw [henc.cons_ascii (by decide), hs]
      rfl
  | @chr c s rest as hclose hslash hdash hname _ ih =>
    obtain ⟨text, u, hloop, hs, hlists, -⟩ := ih
    refine ⟨(if c = '[' then ['\\', c] else [c]) ++ text, enc c ++ u, ?_, ?_, ?_, fun heq => ?_⟩
    · rw [henc.classLoop_chr hclose hslash hname, hloop]
      simp [Nat.add_comm]
    · rw [List.flatMap_cons, hs, List.append_assoc]
    · have hone : Pcre.Lists (if c = '[' then ['\\', c] else [c]) [.chr c] := by
        split_ifs with hopen
        · exact hopen ▸ Pcre.lists_escape (by decide)
        · exact Pcre.lists_chr ⟨hclose, hopen, hslash, hdash⟩
      exact hone.append hlists
    · split_ifs at heq
      · simp at heq
      · exact heq

/-- A class the loop finds the end of is one. -/
theorem Coding.exists_classText {s : List Char} (h : (classLoop 0 (s.flatMap enc)).isSome) :
    ∃ as rest, ClassText s as rest := by
  induction hn : s.length using Nat.strong_induction_on generalizing s with
  | _ n ih =>
    cases s with
    | nil => cases h
    | cons c s =>
      rw [List.length_cons] at hn
      by_cases hclose : c = ']'
      · exact ⟨[], s, hclose ▸ .close⟩
      by_cases hslash : c = '\\'
      · subst hslash
        cases s with
        | nil =>
          rw [henc.cons_ascii (by decide)] at h
          simp [classLoop] at h
        | cons d s =>
          rw [henc.classLoop_escape, Option.isSome_map] at h
          rw [List.length_cons] at hn
          obtain ⟨as, rest, has⟩ := ih s.length (by omega) h rfl
          exact ⟨_, rest, .escape has⟩
      by_cases hname : c = '[' ∧ OpensName s
      · obtain ⟨rfl, name, rest, hne, halpha, rfl⟩ := hname
        rw [henc.classLoop_posix rest hne halpha, Option.isSome_map] at h
        obtain ⟨as, rest', has⟩ := ih rest.length (by simp at hn; omega) h rfl
        exact ⟨_, rest', .posix hne halpha has⟩
      · have hname' : c = '[' → ¬ OpensName s := fun hopen hopens => hname ⟨hopen, hopens⟩
        rw [henc.classLoop_chr hclose hslash hname', Option.isSome_map] at h
        obtain ⟨as, rest, has⟩ := ih s.length (by omega) h rfl
        by_cases hdash : c = '-'
        · subst hdash
          exact ⟨_, rest, .dash has⟩
        · exact ⟨_, rest, .chr hclose hslash hdash hname' has⟩

theorem Coding.classBody {s rest : List Char} {as : List Atom} (h : ClassBody s as rest) :
    as ≠ [] ∧ ∃ text u,
      Glob.classBody (s.flatMap enc) = some (text.flatMap enc ++ [']'], u.length) ∧
        s.flatMap enc = u ++ rest.flatMap enc ∧ Pcre.Lists text as ∧
        (text.head? = some '^' → s.head? = some '^') := by
  cases h with
  | @bracket s _ as h =>
    obtain ⟨text, u, hloop, hs, hlists, -⟩ := henc.classLoop_classText h
    refine ⟨by simp, "\\]".toList ++ text, ']' :: (u ++ [']']), ?_, ?_,
      (Pcre.lists_escape (by decide)).append hlists, by simp⟩
    · rw [henc.cons_ascii (by decide), Glob.classBody, List.head?_cons, if_pos rfl, List.tail_cons,
        hloop, henc.append_ascii (by decide)]
      simp
    · rw [henc.cons_ascii (by decide), hs]
      simp
  | plain hfirst h =>
    obtain ⟨text, u, hloop, hs, hlists, hcaret⟩ := henc.classLoop_classText h
    refine ⟨?_, text, u ++ [']'], ?_, by rw [hs]; simp, hlists, hcaret⟩
    · rintro rfl
      cases h
      exact hfirst rfl
    · rw [Glob.classBody, if_neg (fun heq => hfirst ((henc.head?_eq (by decide)).mp heq)), hloop]
      simp

end Coding

/-- The tokens a pattern is written as. A class that is negated lists the separator first, one that
is not comes behind a lookahead for it. -/
def Token.toks : Token → List Tok
  | lit c => [.lit c]
  | any => [.cls true [.chr '/']]
  | star => [.cls true [.chr '/'], .star]
  | dstar => [.dot, .star]
  | dirs => [.group, .dot, .star, .lit '/', .close, .opt]
  | cls true as => [.cls true (.chr '/' :: as)]
  | cls false as => [.ahead, .lit '/', .close, .cls false as]

section Coding

variable {enc : Char → List Char} (henc : Coding enc)

include henc

theorem Coding.appendClass {s rest : List Char} {negated : Bool} {as : List Atom}
    (h : Class s negated as rest) :
    ∃ text u, Glob.appendClass (s.flatMap enc) = some (text.flatMap enc, u.length) ∧
      s.flatMap enc = u ++ rest.flatMap enc ∧ Pcre.Written text (Token.cls negated as).toks := by
  cases h with
  | @negated c s _ as hmark h =>
    obtain ⟨has, text, u, hbody, hs, hlists, -⟩ := henc.classBody h
    have hc : c.toNat < 0x80 := by rcases hmark with rfl | rfl <;> decide
    have hslash : Pcre.Lists ('/' :: text) (.chr '/' :: as) :=
      (Pcre.lists_chr (by decide)).append hlists
    refine ⟨"[^".toList ++ ('/' :: text) ++ "]".toList, c :: u, ?_, ?_,
      Pcre.written_negated hslash (by simp)⟩
    · have hif : (c :: s.flatMap enc).head? = some '!' ∨ (c :: s.flatMap enc).head? = some '^' := by
        simpa using hmark
      rw [henc.cons_ascii hc, Glob.appendClass, if_pos hif, List.tail_cons, hbody,
        List.append_assoc, henc.append_ascii (by decide), List.cons_append,
        henc.cons_ascii (by decide), List.flatMap_append,
        henc.ascii_eq (u := "]".toList) (by decide)]
      rfl
    · rw [henc.cons_ascii hc, hs]
      rfl
  | plain hmark h =>
    obtain ⟨has, text, u, hbody, hs, hlists, hcaret⟩ := henc.classBody h
    have hne : text ≠ [] := fun hnil => has (Pcre.Lists.eq_nil (hnil ▸ hlists))
    have hahead : Pcre.Written "(?!/)".toList [.ahead, .lit '/', .close] :=
      Pcre.written_of_lex rfl
    refine ⟨"(?!/)".toList ++ ("[".toList ++ text ++ "]".toList), u, ?_, hs,
      hahead.append (Pcre.written_class hlists has (fun heq => hmark.2 (hcaret heq)) hne)⟩
    have hif : ¬ ((s.flatMap enc).head? = some '!' ∨ (s.flatMap enc).head? = some '^') := by
      rw [henc.head?_eq (by decide), henc.head?_eq (by decide), not_or]
      exact hmark
    rw [Glob.appendClass, if_neg hif, hbody, henc.append_ascii (by decide), List.append_assoc,
      henc.append_ascii (by decide), List.flatMap_append,
      henc.ascii_eq (u := "]".toList) (by decide)]
    rfl

theorem Coding.exists_class {s : List Char} (h : (Glob.appendClass (s.flatMap enc)).isSome) :
    ∃ negated as rest, Class s negated as rest := by
  have hbody : ∀ {s}, (Glob.classBody (s.flatMap enc)).isSome →
      ∃ as rest, ClassBody s as rest := by
    intro s h
    rw [Glob.classBody] at h
    split_ifs at h with hfirst
    · obtain ⟨s', rfl⟩ := List.head?_eq_some_iff.mp ((henc.head?_eq (by decide)).mp hfirst)
      rw [henc.cons_ascii (by decide), List.tail_cons, Option.isSome_map] at h
      obtain ⟨as, rest, has⟩ := henc.exists_classText h
      exact ⟨_, rest, .bracket has⟩
    · rw [Option.isSome_map] at h
      obtain ⟨as, rest, has⟩ := henc.exists_classText h
      exact ⟨as, rest, .plain (fun heq => hfirst ((henc.head?_eq (by decide)).mpr heq)) has⟩
  rw [Glob.appendClass] at h
  split_ifs at h with hmark
  · rw [henc.head?_eq (by decide), henc.head?_eq (by decide)] at hmark
    rw [Option.isSome_map] at h
    obtain ⟨c, s', rfl, hc⟩ : ∃ c s', s = c :: s' ∧ (c = '!' ∨ c = '^') := by
      cases s with
      | nil => simp at hmark
      | cons c s => exact ⟨c, s, rfl, by simpa using hmark⟩
    rw [henc.cons_ascii (by rcases hc with rfl | rfl <;> decide), List.tail_cons] at h
    obtain ⟨as, rest, has⟩ := hbody h
    exact ⟨true, as, rest, .negated hc has⟩
  · rw [henc.head?_eq (by decide), henc.head?_eq (by decide), not_or] at hmark
    rw [Option.isSome_map] at h
    obtain ⟨as, rest, has⟩ := hbody h
    exact ⟨false, as, rest, .plain hmark has⟩

omit henc in
theorem escapeString_ascii {c d : Char} (hc : c.toNat < 0x80) (hd : d ∈ escapeString c) :
    d.toNat < 0x80 := by
  unfold escapeString at hd
  exact ascii_ite hc d hd

omit henc in
theorem written_escapeString (c : Char) : Pcre.Written (escapeString c) [.lit c] := by
  refine Pcre.written_of_lex ?_
  unfold escapeString
  split_ifs with h
  · have hall : ("\\|()[]{}^$*+?.".toList.all fun d => !d.isAlphanum) = true := by decide
    have hc : c.isAlphanum = false := by simpa using List.all_eq_true.mp hall c h
    simp [lex, Pcre.scan, hc]
  · have hne : ∀ d ∈ "\\|()[]{}^$*+?.".toList, c ≠ d := fun d hd heq => h (heq ▸ hd)
    simp only [String.reduceToList, List.mem_cons, List.not_mem_nil, or_false, forall_eq_or_imp,
      forall_eq] at hne
    simp [lex, Pcre.scan, Pcre.bare, hne]

/-- A character behind a backslash, of any length. -/
theorem Coding.globLoop_escape (c : Char) (s : List Char) :
    globLoop 0 (('\\' :: c :: s).flatMap enc) =
      ((escapeString c).flatMap enc ++ ·) <$> globLoop 0 (s.flatMap enc) := by
  rw [henc.cons_ascii (by decide), List.flatMap_cons]
  by_cases hc : c.toNat < 0x80
  · rw [henc.ascii c hc, List.singleton_append, Glob.globLoop_escape,
      henc.ascii_eq fun d hd => escapeString_ascii hc hd]
  · obtain ⟨hne, hhigh⟩ := henc.high c (by omega)
    obtain ⟨d, ds, hd⟩ := List.exists_cons_of_ne_nil hne
    rw [hd, List.cons_append, Glob.globLoop_escape,
      globLoop_high fun e he => hhigh e (hd ▸ List.mem_cons_of_mem d he),
      escapeString_high (hhigh d (hd ▸ List.mem_cons_self)), escapeString_high (c := c) (by omega)]
    cases globLoop 0 (s.flatMap enc) <;> simp [hd]

theorem Coding.globLoop_lit {c : Char} (s : List Char)
    (hc : c ≠ '*' ∧ c ≠ '?' ∧ c ≠ '[' ∧ c ≠ '\\') :
    globLoop 0 ((c :: s).flatMap enc) =
      ((escapeString c).flatMap enc ++ ·) <$> globLoop 0 (s.flatMap enc) := by
  rw [List.flatMap_cons]
  by_cases hlow : c.toNat < 0x80
  · rw [henc.ascii c hlow, List.singleton_append, Glob.globLoop_lit _ hc,
      henc.ascii_eq fun d hd => escapeString_ascii hlow hd]
  · rw [globLoop_high (henc.high c (by omega)).2, escapeString_high (c := c) (by omega)]
    simp

/-- The loop writes what the pattern spells. -/
theorem Coding.globLoop_spells {s : List Char} {ts : List Token} (h : Spells s ts) :
    ∃ text, globLoop 0 (s.flatMap enc) = some (text.flatMap enc) ∧
      Pcre.Written text (ts.flatMap Token.toks) := by
  have hascii : ∀ {m text : List Char} {x : Option (List Char)},
      Below 0x80 m → x = some (text.flatMap enc) →
        (m ++ ·) <$> x = some ((m ++ text).flatMap enc) := by
    intro m text x hm hx
    rw [hx, henc.append_ascii hm]
    rfl
  induction h with
  | nil => exact ⟨[], rfl, Pcre.written_of_lex rfl⟩
  | @lit c s ts hc _ ih =>
    obtain ⟨text, hloop, hwritten⟩ := ih
    refine ⟨escapeString c ++ text, ?_, (written_escapeString c).append hwritten⟩
    rw [henc.globLoop_lit s hc, hloop, List.flatMap_append]
    rfl
  | @escape c s ts _ ih =>
    obtain ⟨text, hloop, hwritten⟩ := ih
    refine ⟨escapeString c ++ text, ?_, (written_escapeString c).append hwritten⟩
    rw [henc.globLoop_escape c s, hloop, List.flatMap_append]
    rfl
  | backslash =>
    refine ⟨['\\', '\\'], ?_, Pcre.written_of_lex rfl⟩
    rw [henc.ascii_eq (by decide), henc.ascii_eq (by decide)]
    rfl
  | @any s ts _ ih =>
    obtain ⟨text, hloop, hwritten⟩ := ih
    refine ⟨"[^/]".toList ++ text, ?_, Pcre.Written.append (Pcre.written_of_lex rfl) hwritten⟩
    rw [henc.cons_ascii (by decide), globLoop_any]
    exact hascii (by decide) hloop
  | @star s ts hnext _ ih =>
    obtain ⟨text, hloop, hwritten⟩ := ih
    refine ⟨"[^/]*".toList ++ text, ?_, Pcre.Written.append (Pcre.written_of_lex rfl) hwritten⟩
    rw [henc.cons_ascii (by decide),
      globLoop_star fun heq => hnext ((henc.head?_eq (by decide)).mp heq)]
    exact hascii (by decide) hloop
  | @dirs k s ts _ ih =>
    obtain ⟨text, hloop, hwritten⟩ := ih
    refine ⟨"(?:.*/)?".toList ++ text, ?_, Pcre.Written.append (Pcre.written_of_lex rfl) hwritten⟩
    rw [henc.append_ascii fun c hc => by rw [List.eq_of_mem_replicate hc]; decide,
      henc.cons_ascii (by decide), globLoop_dirs]
    exact hascii (by decide) hloop
  | @dstar k s ts hnext _ ih =>
    obtain ⟨text, hloop, hwritten⟩ := ih
    refine ⟨".*".toList ++ text, ?_, Pcre.Written.append (Pcre.written_of_lex rfl) hwritten⟩
    rw [henc.append_ascii fun c hc => by rw [List.eq_of_mem_replicate hc]; decide,
      globLoop_dstar ⟨fun heq => hnext.1 ((henc.head?_eq (by decide)).mp heq),
        fun heq => hnext.2 ((henc.head?_eq (by decide)).mp heq)⟩]
    exact hascii (by decide) hloop
  | @cls s rest negated as ts hclass _ ih =>
    obtain ⟨text, hloop, hwritten⟩ := ih
    obtain ⟨text', u, happend, hs, hwritten'⟩ := henc.appendClass hclass
    refine ⟨text' ++ text, ?_, hwritten'.append hwritten⟩
    rw [hs] at happend
    rw [henc.cons_ascii (by decide), hs, globLoop_class happend, hloop, List.flatMap_append]
    rfl

omit henc in
theorem exists_stars (s : List Char) :
    ∃ k rest, s = List.replicate k '*' ++ rest ∧ rest.head? ≠ some '*' := by
  induction s with
  | nil => exact ⟨0, [], rfl, by simp⟩
  | cons c s ih =>
    by_cases hc : c = '*'
    · obtain ⟨k, rest, rfl, hrest⟩ := ih
      exact ⟨k + 1, rest, by rw [hc, List.replicate_succ, List.cons_append], hrest⟩
    · exact ⟨0, c :: s, rfl, by simpa using hc⟩

/-- What the loop translates is a pattern. -/
theorem Coding.exists_spells {s : List Char} (h : (globLoop 0 (s.flatMap enc)).isSome) :
    ∃ ts, Spells s ts := by
  induction hn : s.length using Nat.strong_induction_on generalizing s with
  | _ n ih =>
    cases s with
    | nil => exact ⟨[], .nil⟩
    | cons c s =>
      rw [List.length_cons] at hn
      by_cases hstar : c = '*'
      · subst hstar
        obtain ⟨k, rest, rfl, hrest⟩ := exists_stars s
        have hlow : ∀ j, Below 0x80 (List.replicate j '*') := fun j c hc => by
          rw [List.eq_of_mem_replicate hc]
          decide
        rw [List.length_append, List.length_replicate] at hn
        cases k with
        | zero =>
          rw [List.replicate_zero, List.nil_append] at h ⊢
          rw [henc.cons_ascii (by decide),
            globLoop_star fun heq => hrest ((henc.head?_eq (by decide)).mp heq),
            Option.map_eq_map, Option.isSome_map] at h
          obtain ⟨ts, hts⟩ := ih rest.length (by omega) h rfl
          exact ⟨_, .star hrest hts⟩
        | succ k =>
          rw [← List.cons_append, ← List.replicate_succ] at h ⊢
          by_cases hsep : rest.head? = some '/'
          · obtain ⟨rest, rfl⟩ := List.head?_eq_some_iff.mp hsep
            rw [henc.append_ascii (hlow _), henc.cons_ascii (by decide), globLoop_dirs,
              Option.map_eq_map, Option.isSome_map] at h
            obtain ⟨ts, hts⟩ := ih rest.length (by simp at hn; omega) h rfl
            exact ⟨_, .dirs hts⟩
          · rw [henc.append_ascii (hlow _),
              globLoop_dstar ⟨fun heq => hrest ((henc.head?_eq (by decide)).mp heq),
                fun heq => hsep ((henc.head?_eq (by decide)).mp heq)⟩,
              Option.map_eq_map, Option.isSome_map] at h
            obtain ⟨ts, hts⟩ := ih rest.length (by omega) h rfl
            exact ⟨_, .dstar ⟨hrest, hsep⟩ hts⟩
      by_cases hany : c = '?'
      · subst hany
        rw [henc.cons_ascii (by decide), globLoop_any, Option.map_eq_map, Option.isSome_map] at h
        obtain ⟨ts, hts⟩ := ih s.length (by omega) h rfl
        exact ⟨_, .any hts⟩
      by_cases hopen : c = '['
      · subst hopen
        have hclass : (Glob.appendClass (s.flatMap enc)).isSome := by
          rw [henc.cons_ascii (by decide)] at h
          cases hnone : Glob.appendClass (s.flatMap enc) with
          | none => simp [globLoop, hnone] at h
          | some found => rfl
        obtain ⟨negated, as, rest, has⟩ := henc.exists_class hclass
        obtain ⟨text, u, happend, hs, -⟩ := henc.appendClass has
        rw [hs] at happend
        rw [henc.cons_ascii (by decide), hs, globLoop_class happend, Option.map_eq_map,
          Option.isSome_map] at h
        obtain ⟨ts, hts⟩ := ih rest.length (by have := has.suffix.length_le; omega) h rfl
        exact ⟨_, .cls has hts⟩
      by_cases hslash : c = '\\'
      · subst hslash
        cases s with
        | nil => exact ⟨_, .backslash⟩
        | cons d s =>
          rw [henc.globLoop_escape, Option.map_eq_map, Option.isSome_map] at h
          rw [List.length_cons] at hn
          obtain ⟨ts, hts⟩ := ih s.length (by omega) h rfl
          exact ⟨_, .escape hts⟩
      · have hlit : c ≠ '*' ∧ c ≠ '?' ∧ c ≠ '[' ∧ c ≠ '\\' := ⟨hstar, hany, hopen, hslash⟩
        rw [henc.globLoop_lit s hlit, Option.map_eq_map, Option.isSome_map] at h
        obtain ⟨ts, hts⟩ := ih s.length (by omega) h rfl
        exact ⟨_, .lit hlit hts⟩

end Coding

/-! ### The characters of a translation -/

/-- What is written from `s` holds, beyond ASCII, characters of `s` only. -/
def From (s text : List Char) : Prop := ∀ c ∈ text, c ∈ s ∨ c.toNat < 0x80

theorem From.append {s text text' : List Char} (h : From s text) (h' : From s text') :
    From s (text ++ text') := by
  intro c hc
  exact (List.mem_append.mp hc).elim (h c) (h' c)

theorem From.cons {s text : List Char} (h : From s text) (c : Char) : From (c :: s) text :=
  fun d hd => (h d hd).imp_left (List.mem_cons_of_mem c)

theorem from_ascii {s text : List Char} (h : Below 0x80 text) : From s text :=
  fun c hc => Or.inr (h c hc)

theorem from_of_pair {s text : List Char} {c d : Char} (hd : d ∈ s)
    (h : text = [d] ∨ text = [c, d]) (hc : c.toNat < 0x80) : From s text := by
  intro e he
  rcases h with rfl | rfl
  · exact Or.inl (List.mem_singleton.mp he ▸ hd)
  · simp only [List.mem_cons, List.not_mem_nil, or_false] at he
    rcases he with rfl | rfl
    · exact Or.inr hc
    · exact Or.inl hd

theorem from_escapeString {s : List Char} {c : Char} (hc : c ∈ s) : From s (escapeString c) := by
  refine from_of_pair hc ?_ (show '\\'.toNat < 0x80 by decide)
  unfold escapeString
  split_ifs
  · exact Or.inr rfl
  · exact Or.inl rfl

theorem from_escapeMember {s : List Char} {c : Char} (hc : c ∈ s) : From s (escapeMember c) := by
  refine from_of_pair hc ?_ (show '\\'.toNat < 0x80 by decide)
  unfold escapeMember
  split_ifs
  · exact Or.inr rfl
  · exact Or.inl rfl

theorem From.of_map {s m text : List Char} {n : ℕ} {c : Char} {x : Option (List Char × ℕ)}
    {f : List Char × ℕ → List Char × ℕ} (hm : From (c :: s) m)
    (hf : ∀ y, (f y).1 = m ++ y.1) (hx : ∀ {text n}, x = some (text, n) → From s text)
    (h : x.map f = some (text, n)) : From (c :: s) text := by
  obtain ⟨⟨text', n'⟩, rfl, hy⟩ := Option.map_eq_some_iff.mp h
  have htext : text = m ++ text' := by rw [← hf (text', n'), hy]
  exact htext ▸ hm.append ((hx rfl).cons c)

theorem mem_of_head? {s : List Char} {b : Prop} [Decidable b] {c d : Char}
    (h : (if b then s.head? else none) = some d) : d ∈ c :: s := by
  split_ifs at h
  exact List.mem_cons_of_mem c (List.mem_of_mem_head? h)

theorem from_classLoop {skip : ℕ} {s text : List Char} {n : ℕ}
    (h : classLoop skip s = some (text, n)) : From s text := by
  fun_induction classLoop skip s generalizing text n with
  | case1 => cases h
  | case2 skip c s ih =>
    refine From.of_map (m := []) ?_ ?_ ih h
    · exact fun d hd => absurd hd List.not_mem_nil
    · exact fun _ => rfl
  | case3 s =>
    obtain ⟨rfl, -⟩ := Prod.mk.inj (Option.some.inj h)
    exact from_ascii (by decide)
  | case4 c s hclose name hname ih =>
    refine From.of_map (m := "[:".toList ++ name ++ ":]".toList) ?_ ?_ ih h
    · split_ifs at hname
      have halpha := (posixName_eq_some.mp hname).2.1
      refine from_ascii fun d hd => ?_
      have := posixText_ascii halpha d
      simp only [String.reduceToList, List.mem_append, List.mem_cons, List.not_mem_nil,
        or_false] at hd this
      exact this (by tauto)
    · exact fun _ => rfl
  | case5 c s hclose hname d hd ih =>
    refine From.of_map (m := escapeMember d) ?_ ?_ ih h
    · exact from_escapeMember (mem_of_head? hd)
    · exact fun _ => rfl
  | case6 c s hclose hname hd ih =>
    refine From.of_map (m := if c = '\\' ∨ c = '[' then ['\\', c] else [c]) ?_ ?_ ih h
    · refine from_of_pair List.mem_cons_self ?_ (show '\\'.toNat < 0x80 by decide)
      split_ifs
      · exact Or.inr rfl
      · exact Or.inl rfl
    · exact fun _ => rfl

theorem from_appendClass {s text : List Char} {n : ℕ} (h : appendClass s = some (text, n)) :
    From s text := by
  have hbody : ∀ {s text : List Char} {n : ℕ}, classBody s = some (text, n) → From s text := by
    intro s text n h
    rw [classBody] at h
    split_ifs at h with hfirst
    · obtain ⟨s', rfl⟩ := List.head?_eq_some_iff.mp hfirst
      refine From.of_map (m := "\\]".toList) ?_ ?_ from_classLoop h
      · exact from_ascii (by decide)
      · exact fun _ => rfl
    · obtain ⟨⟨text', n'⟩, hloop, hy⟩ := Option.map_eq_some_iff.mp h
      obtain ⟨rfl, -⟩ := Prod.mk.inj hy
      exact from_classLoop hloop
  rw [appendClass] at h
  split_ifs at h with hmark
  · cases s with
    | nil => simp at hmark
    | cons c s =>
      refine From.of_map (m := "[^/".toList) ?_ ?_ hbody h
      · exact from_ascii (by decide)
      · exact fun _ => rfl
  · obtain ⟨⟨text', n'⟩, hbody', hy⟩ := Option.map_eq_some_iff.mp h
    obtain ⟨rfl, -⟩ := Prod.mk.inj hy
    exact From.append (from_ascii (by decide)) (hbody hbody')

theorem from_globLoop {skip : ℕ} {s text : List Char} (h : globLoop skip s = some text) :
    From s text := by
  have hmap : ∀ {s m text : List Char} {c : Char} {x : Option (List Char)},
      From (c :: s) m → (∀ {text}, x = some text → From s text) →
        (m ++ ·) <$> x = some text → From (c :: s) text := by
    intro s m text c x hm hx h
    obtain ⟨text', rfl, rfl⟩ := Option.map_eq_some_iff.mp h
    exact hm.append ((hx rfl).cons c)
  fun_induction globLoop skip s generalizing text with
  | case1 => exact Option.some.inj h ▸ fun c hc => absurd hc List.not_mem_nil
  | case2 skip c s ih => exact (ih h).cons c
  | case3 =>
    rename_i ih
    exact hmap (from_ascii (by decide)) ih h
  | case4 =>
    rename_i ih
    exact hmap (from_ascii (by decide)) ih h
  | case5 =>
    rename_i ih
    exact hmap (from_ascii (by decide)) ih h
  | case6 s hstar ih => exact hmap (from_ascii (by decide)) ih h
  | case7 => cases h
  | case8 s text' n hclass _ _ ih => exact hmap ((from_appendClass hclass).cons '[') ih h
  | case9 c s hstar hany hopen d hd ih => exact hmap (from_escapeString (mem_of_head? hd)) ih h
  | case10 c s hstar hany hopen hd ih =>
    exact hmap (from_escapeString List.mem_cons_self) ih h

theorem from_globToRegex {pat frag : List Char} {dirOnly : Bool}
    (h : globToRegex pat = .ok (frag, dirOnly)) : From pat frag := by
  simp only [globToRegex] at h
  split_ifs at h
  cases hloop : globLoop 0 (pat.rdropWhile (· == '/')) with
  | none => rw [hloop] at h; cases h
  | some text =>
    rw [hloop] at h
    obtain ⟨rfl, -⟩ := Prod.mk.inj (Except.ok.inj h)
    have hstart : Below 0x80 (anchorText pat (pat.rdropWhile (· == '/'))) := by
      unfold anchorText
      split_ifs <;> decide
    have hbody : From pat text := fun c hc =>
      (from_globLoop hloop c hc).imp_left fun hmem => (List.rdropWhile_prefix _ _).subset hmem
    exact ((from_ascii hstart).append hbody).append (from_ascii (by decide))

end Glob

end Oans
