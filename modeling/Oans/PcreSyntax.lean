import Oans.Regex

/-!
# The text of regular expressions

A part of the syntax of PCRE2: literals and escapes, a dot that takes any character, classes with
ranges and POSIX names, groups, alternatives, the anchors, a negative lookahead and the
quantifiers `*` and `?`. What falls outside of it is not read, as what PCRE2 rejects is not.
-/

namespace Pcre

/-- What a class lists, with a bare hyphen told from an escaped one. -/
inductive Atom where
  | chr (c : Char)
  | dash
  | posix (name : List Char)
  deriving DecidableEq

inductive Item where
  | one (c : Char)
  | range (a b : Char)
  | posix (f : Char → Bool)

def Item.has : Item → Char → Bool
  | one a, c => c == a
  | range a b, c => decide (a ≤ c ∧ c ≤ b)
  | posix f, c => f c

/-- Whether a hyphen would start a range, and from which character. -/
inductive RangeState where
  | no
  | ok (c : Char)
  | started (c : Char)

def RangeState.pending : RangeState → List Item
  | no => []
  | ok c => [.one c]
  | started c => [.one c, .one '-']

def RangeState.next : RangeState → Char → Option (List Item × RangeState)
  | started a, c => if c < a then none else some ([.range a c], .no)
  | st, c => some (st.pending, .ok c)

/-- A hyphen between two characters makes a range of them. It stands for itself at either end of
a class and behind a range, and neither end of a range may be a POSIX class. -/
def readItems (posix : List Char → Option (Char → Bool)) :
    RangeState → List Atom → Option (List Item)
  | st, [] => some st.pending
  | .ok a, .dash :: as => readItems posix (.started a) as
  | st, .dash :: as => do
    let (items, st) ← st.next '-'
    (items ++ ·) <$> readItems posix st as
  | st, .chr c :: as => do
    let (items, st) ← st.next c
    (items ++ ·) <$> readItems posix st as
  | .started _, .posix _ :: _ => none
  | st, .posix name :: as =>
    if as.head? = some .dash ∧ as.tail ≠ [] then none
    else do
      let f ← posix name
      (st.pending ++ .posix f :: ·) <$> readItems posix .no as

def classOf (posix : List Char → Option (Char → Bool)) (atoms : List Atom) :
    Option (Char → Bool) :=
  (readItems posix .no atoms).map fun items c => items.any (·.has c)

/-- `check_posix_syntax()`: whether a POSIX class ends before a bracket that is not escaped. -/
def posixSyntax (terminator : Char) : List Char → Bool
  | c :: d :: s =>
    if c = '\\' ∧ (d = ']' ∨ d = '\\') then posixSyntax terminator s
    else if c = '[' ∧ d = terminator ∨ c = ']' then false
    else if c = terminator ∧ d = ']' then true
    else posixSyntax terminator (d :: s)
  | _ => false

def opensPosix : List Char → Bool
  | [] => false
  | c :: s => (c == ':' || c == '.' || c == '=') && posixSyntax c s

inductive Tok where
  | bos
  | eos
  | dot
  | star
  | opt
  | group
  | ahead
  | close
  | bar
  | lit (c : Char)
  | cls (negated : Bool) (atoms : List Atom)

def bare (c : Char) : Option Tok :=
  if c = '^' then some .bos
  else if c = '$' then some .eos
  else if c = '.' then some .dot
  else if c = '*' then some .star
  else if c = '?' then some .opt
  else if c = ')' then some .close
  else if c = '|' then some .bar
  else if c = '+' ∨ c = '{' then none
  else some (.lit c)

/-- Where a reader stands: outside the classes, behind a backslash, `(`, `(?` or `[`, in a class
behind some of it, behind a backslash there, or in the name of a POSIX class. -/
inductive Place where
  | text
  | escape
  | paren
  | mark
  | bracket
  | cls (negated : Bool) (atoms : List Atom)
  | clsEscape (negated : Bool) (atoms : List Atom)
  | name (negated : Bool) (atoms : List Atom) (letters : List Char)

def scan : Place → Char → List Char → Option (List Tok × Place)
  | .text, c, s =>
    if c = '\\' then some ([], .escape)
    else if c = '(' then some ([], .paren)
    else if c = '[' then if opensPosix s then none else some ([], .bracket)
    else (bare c).map fun t => ([t], .text)
  | .escape, c, _ => if c.isAlphanum then none else some ([.lit c], .text)
  | .paren, c, _ => if c = '?' then some ([], .mark) else none
  | .mark, c, _ =>
    if c = ':' then some ([.group], .text)
    else if c = '!' then some ([.ahead], .text)
    else none
  | .bracket, c, s => if c = '^' then some ([], .cls true []) else scanClass false [] c s
  | .cls negated atoms, c, s => scanClass negated atoms c s
  | .clsEscape negated atoms, c, _ =>
    if c.isAlphanum then none else some ([], .cls negated (atoms ++ [.chr c]))
  | .name negated atoms letters, c, _ =>
    if c = ']' ∧ letters.getLast? = some ':' then
      some ([], .cls negated (atoms ++ [.posix letters.tail.dropLast]))
    else some ([], .name negated atoms (letters ++ [c]))
where
  scanClass (negated : Bool) (atoms : List Atom) (c : Char) (s : List Char) :
      Option (List Tok × Place) :=
    -- a bracket that comes first closes nothing
    if c = ']' ∧ atoms ≠ [] then some ([.cls negated atoms], .text)
    else if c = '[' ∧ opensPosix s then
      if s.head? = some ':' then some ([], .name negated atoms []) else none
    else if c = '\\' then some ([], .clsEscape negated atoms)
    else if c = '-' then some ([], .cls negated (atoms ++ [.dash]))
    else some ([], .cls negated (atoms ++ [.chr c]))

def lex : Place → List Char → Option (List Tok)
  | .text, [] => some []
  | _, [] => none
  | place, c :: s => do
    let (toks, place) ← scan place c s
    (toks ++ ·) <$> lex place s

/-- An open group: what it is and what stands before it. -/
structure Frame where
  ahead : Bool
  alts : Option (Regex Char)
  seq : Regex Char

/-- An expression read so far: the groups open around it, the alternatives before the last bar,
and behind that what no quantifier can change and what one can. -/
structure Parsed where
  outer : List Frame
  alts : Option (Regex Char)
  seq : Regex Char
  last : Option (Regex Char)

namespace Parsed

def start : Parsed := ⟨[], none, .empty, none⟩

def flush (st : Parsed) : Regex Char :=
  match st.last with
  | none => st.seq
  | some r => .cat st.seq r

def join (st : Parsed) : Regex Char :=
  match st.alts with
  | none => st.flush
  | some r => .alt r st.flush

def push (st : Parsed) (r : Regex Char) : Parsed :=
  { st with seq := st.flush, last := some r }

def fix (st : Parsed) (r : Regex Char) : Parsed :=
  { st with seq := .cat st.flush r, last := none }

def quantify (st : Parsed) (f : Regex Char → Regex Char) : Option Parsed :=
  st.last.map fun r => { st with seq := .cat st.seq (f r), last := none }

def «open» (st : Parsed) (ahead : Bool) : Parsed :=
  ⟨⟨ahead, st.alts, st.flush⟩ :: st.outer, none, .empty, none⟩

def close (st : Parsed) : Option Parsed :=
  match st.outer with
  | [] => none
  | frame :: outer =>
    let before : Parsed := ⟨outer, frame.alts, frame.seq, none⟩
    some (if frame.ahead then before.fix (.notAhead st.join) else before.push st.join)

def step (posix : List Char → Option (Char → Bool)) (st : Parsed) : Tok → Option Parsed
  | .bos => some (st.fix .bos)
  | .eos => some (st.fix .eos)
  | .dot => some (st.push (.one fun _ => true))
  | .star => st.quantify .star
  | .opt => st.quantify fun r => .alt r .empty
  | .group => some (st.open false)
  | .ahead => some (st.open true)
  | .close => st.close
  | .bar => some { st with alts := some st.join, seq := .empty, last := none }
  | .lit c => some (st.push (.one fun d => d == c))
  | .cls negated atoms =>
    (classOf posix atoms).map fun f => st.push (.one fun c => f c != negated)

end Parsed

def compile (posix : List Char → Option (Char → Bool)) (text : List Char) :
    Option (Regex Char) := do
  let toks ← lex .text text
  let st ← toks.foldlM (Parsed.step posix) .start
  if st.outer.isEmpty then some st.join else none

/-! ### Reading a text piece by piece -/

def settles : List Char → Bool
  | '\\' :: d :: s => if d = ']' ∨ d = '\\' then settles s else settles (d :: s)
  | c :: s => if c = ']' then true else settles s
  | [] => false

theorem settles_cons {c : Char} {s : List Char} (hc : c ≠ '\\') :
    settles (c :: s) = if c = ']' then true else settles s := by
  rw [settles]
  rintro d s' rfl
  exact absurd rfl hc

/-- What follows the bracket has no say in where a POSIX class ends. -/
theorem posixSyntax_append {t : Char} {s v : List Char} (h : settles s = true) :
    posixSyntax t (s ++ v) = posixSyntax t s := by
  fun_induction settles s with
  | case1 d s hd ih => simp [posixSyntax, hd, ih h]
  | case2 d s hd ih =>
    have := ih h
    rw [List.cons_append] at this
    simp only [List.cons_append, posixSyntax, this, hd, and_false, if_false]
  | case3 s => cases s <;> cases v <;> simp [posixSyntax]
  | case4 c s hne hc ih =>
    cases s with
    | nil => simp [settles] at h
    | cons d s =>
      have := ih h
      rw [List.cons_append] at this
      have hslash : ¬ (c = '\\' ∧ (d = ']' ∨ d = '\\')) := fun hand => hne d s hand.1 rfl
      simp only [List.cons_append, posixSyntax, this, if_neg hslash]
  | case5 => cases h

theorem opensPosix_append {s v : List Char} (h : settles s = true) :
    opensPosix (s ++ v) = opensPosix s := by
  cases s with
  | nil => cases h
  | cons c s =>
    simp only [List.cons_append, opensPosix]
    by_cases hc : (c == ':' || c == '.' || c == '=') = true
    · have hset : settles s = true := by
        rw [settles_cons (by rintro rfl; simp at hc), if_neg (by rintro rfl; simp at hc)] at h
        exact h
      rw [posixSyntax_append hset]
    · rw [Bool.not_eq_true] at hc
      rw [hc, Bool.false_and, Bool.false_and]

theorem lex_cons {place : Place} {c : Char} {s : List Char} {toks : List Tok} :
    lex place (c :: s) = some toks ↔ ∃ ts place' toks',
      scan place c s = some (ts, place') ∧ lex place' s = some toks' ∧ toks = ts ++ toks' := by
  simp only [lex, Option.bind_eq_bind, Option.bind_eq_some_iff, Option.map_eq_map,
    Option.map_eq_some_iff, Prod.exists]
  constructor
  · rintro ⟨ts, place', hscan, toks', hlex, rfl⟩
    exact ⟨ts, place', toks', hscan, hlex, rfl⟩
  · rintro ⟨ts, place', toks', hscan, hlex, rfl⟩
    exact ⟨ts, place', hscan, toks', hlex, rfl⟩

theorem lex_nil {place : Place} {toks : List Tok} (h : lex place [] = some toks) :
    place = .text ∧ toks = [] := by
  cases place <;> simp_all [lex]

def Place.Inside : Place → Prop
  | bracket => True
  | cls _ _ => True
  | name _ _ _ => True
  | _ => False

theorem scanClass_inside {negated : Bool} {atoms : List Atom} {c : Char} {s : List Char}
    {ts : List Tok} {place : Place} (h : scan.scanClass negated atoms c s = some (ts, place))
    (hc : c ≠ ']') :
    if c = '\\' then ∃ negated atoms, place = .clsEscape negated atoms else place.Inside := by
  unfold scan.scanClass at h
  split_ifs at h with hend hposix _ hslash hdash
  · exact absurd hend.1 hc
  · obtain ⟨-, rfl⟩ := Prod.mk.inj (Option.some.inj h)
    rw [hposix.1, if_neg (by decide)]
    trivial
  · rw [if_pos hslash]
    exact ⟨negated, atoms, (Prod.mk.inj (Option.some.inj h)).2.symm⟩
  · obtain ⟨-, rfl⟩ := Prod.mk.inj (Option.some.inj h)
    rw [if_neg hslash]
    trivial
  · obtain ⟨-, rfl⟩ := Prod.mk.inj (Option.some.inj h)
    rw [if_neg hslash]
    trivial

/-- Past anything but a closing bracket a reader stays in a class; behind a backslash it stands
where that escapes, or in a name the backslash is part of. -/
theorem scan_inside {place place' : Place} {c : Char} {s : List Char} {ts : List Tok}
    (hin : place.Inside) (h : scan place c s = some (ts, place')) (hc : c ≠ ']') :
    if c = '\\' then (∃ negated atoms, place' = .clsEscape negated atoms) ∨
      ∃ negated atoms letters, place' = .name negated atoms (letters ++ ['\\'])
    else place'.Inside := by
  have hclass : ∀ {negated atoms}, scan.scanClass negated atoms c s = some (ts, place') →
      if c = '\\' then (∃ negated atoms, place' = .clsEscape negated atoms) ∨
        ∃ negated atoms letters, place' = .name negated atoms (letters ++ ['\\'])
      else place'.Inside := by
    intro negated atoms hscan
    have := scanClass_inside hscan hc
    split_ifs at this ⊢
    · exact Or.inl this
    · exact this
  cases place with
  | bracket =>
    simp only [scan] at h
    split_ifs at h with hcaret
    · obtain ⟨-, rfl⟩ := Prod.mk.inj (Option.some.inj h)
      rw [hcaret, if_neg (by decide)]
      trivial
    · exact hclass h
  | cls negated atoms => exact hclass h
  | name negated atoms letters =>
    simp only [scan, if_neg (fun hand => hc (And.left hand))] at h
    obtain ⟨-, rfl⟩ := Prod.mk.inj (Option.some.inj h)
    split_ifs with hslash
    · exact Or.inr ⟨negated, atoms, letters, by rw [hslash]⟩
    · trivial
  | text => cases hin
  | escape => cases hin
  | paren => cases hin
  | mark => cases hin
  | clsEscape => cases hin

/-- A class that is read to its end has a bracket that is not escaped. -/
theorem settles_of_lex {place : Place} {s : List Char} {toks : List Tok} (hin : place.Inside)
    (h : lex place s = some toks) : settles s = true := by
  induction hn : s.length using Nat.strong_induction_on generalizing place s toks with
  | _ n ih =>
    cases s with
    | nil => exact absurd (lex_nil h).1 (by rintro rfl; cases hin)
    | cons c s =>
      rw [List.length_cons] at hn
      obtain ⟨ts, place', toks', hscan, hlex, -⟩ := lex_cons.mp h
      by_cases hclose : c = ']'
      · rw [hclose, settles_cons (by decide), if_pos rfl]
      have hplace := scan_inside hin hscan hclose
      by_cases hslash : c = '\\'
      · rw [if_pos hslash] at hplace
        subst hslash
        -- the backslash and what it stands before are passed together
        cases s with
        | nil => rcases hplace with ⟨_, _, rfl⟩ | ⟨_, _, _, rfl⟩ <;> cases (lex_nil hlex).1
        | cons d s =>
          rw [List.length_cons] at hn
          obtain ⟨ts', place'', toks'', hscan', hlex', -⟩ := lex_cons.mp hlex
          have hin' : place''.Inside := by
            rcases hplace with ⟨negated, atoms, rfl⟩ | ⟨negated, atoms, letters, rfl⟩
            · simp only [scan] at hscan'
              split_ifs at hscan'
              rw [← (Prod.mk.inj (Option.some.inj hscan')).2]
              trivial
            · rw [scan, if_neg (by simp)] at hscan'
              rw [← (Prod.mk.inj (Option.some.inj hscan')).2]
              trivial
          have hrest := ih s.length (by omega) hin' hlex' rfl
          rw [settles]
          split_ifs with hd
          · exact hrest
          · rw [not_or] at hd
            rw [settles_cons hd.2, if_neg hd.1]
            exact hrest
      · rw [if_neg hslash] at hplace
        rw [settles_cons hslash, if_neg hclose]
        exact ih s.length (by omega) hplace hlex rfl

theorem head?_append_of_settles {s v : List Char} (h : settles s = true) :
    (s ++ v).head? = s.head? := by
  cases s with
  | nil => cases h
  | cons c s => rfl

/-- What is added behind a text that can be read does not change how it is read. -/
theorem scan_append {place place' : Place} {c : Char} {s v : List Char} {ts toks : List Tok}
    (hscan : scan place c s = some (ts, place')) (hlex : lex place' s = some toks) :
    scan place c (s ++ v) = some (ts, place') := by
  by_cases hc : c = '['
  · subst hc
    have hclass : ∀ {negated atoms},
        scan.scanClass negated atoms '[' s = some (ts, place') →
          scan.scanClass negated atoms '[' (s ++ v) = some (ts, place') := by
      intro negated atoms h
      have hset : settles s = true := by
        have hin := scanClass_inside h (by decide)
        rw [if_neg (by decide)] at hin
        exact settles_of_lex hin hlex
      rw [← h]
      unfold scan.scanClass
      rw [opensPosix_append hset, head?_append_of_settles hset]
    cases place with
    | text =>
      simp only [scan, if_neg (show ¬ '[' = '\\' by decide), if_neg (show ¬ '[' = '(' by decide),
        if_true] at hscan ⊢
      split_ifs at hscan with hopens
      obtain ⟨rfl, rfl⟩ := Prod.mk.inj (Option.some.inj hscan)
      have hset := settles_of_lex (show Place.bracket.Inside from trivial) hlex
      rw [opensPosix_append hset, if_neg hopens]
    | bracket =>
      simp only [scan, if_neg (show ¬ '[' = '^' by decide)] at hscan ⊢
      exact hclass hscan
    | cls negated atoms => exact hclass hscan
    | escape => exact hscan
    | paren => exact hscan
    | mark => exact hscan
    | clsEscape => exact hscan
    | name => exact hscan
  · rw [← hscan]
    cases place <;> simp only [scan, scan.scanClass, hc, false_and, if_false]

theorem lex_append {place : Place} {u v : List Char} {toks : List Tok}
    (h : lex place u = some toks) : lex place (u ++ v) = (toks ++ ·) <$> lex .text v := by
  induction u generalizing place toks with
  | nil =>
    obtain ⟨rfl, rfl⟩ := lex_nil h
    simp
  | cons c s ih =>
    obtain ⟨ts, place', toks', hscan, hlex, rfl⟩ := lex_cons.mp h
    rw [List.cons_append, lex, scan_append hscan hlex, Option.bind_eq_bind, Option.bind_some]
    change (ts ++ ·) <$> lex place' (s ++ v) = _
    rw [ih hlex]
    cases lex .text v <;> simp

def Lists (text : List Char) (as : List Atom) : Prop :=
  ∀ negated atoms v,
    lex (.cls negated atoms) (text ++ v) = lex (.cls negated (atoms ++ as)) v

theorem lists_nil : Lists [] [] := fun negated atoms v => by rw [List.nil_append, List.append_nil]

theorem Lists.append {text text' : List Char} {as as' : List Atom} (h : Lists text as)
    (h' : Lists text' as') : Lists (text ++ text') (as ++ as') := by
  intro negated atoms v
  rw [List.append_assoc, h, h', List.append_assoc]

theorem Lists.eq_nil {as : List Atom} (h : Lists [] as) : as = [] := by
  by_contra hne
  have := h false [] [']']
  simp [lex, scan, scan.scanClass, hne] at this

theorem lex_of_scan {place place' : Place} {c : Char} {s : List Char}
    (h : scan place c s = some ([], place')) : lex place (c :: s) = lex place' s := by
  rw [lex, h]
  simp

theorem lists_chr {c : Char} (hc : c ≠ ']' ∧ c ≠ '[' ∧ c ≠ '\\' ∧ c ≠ '-') :
    Lists [c] [.chr c] := fun negated atoms v =>
  lex_of_scan (by simp [scan, scan.scanClass, hc])

theorem lists_dash : Lists ['-'] [.dash] := fun negated atoms v =>
  lex_of_scan (by simp [scan, scan.scanClass])

theorem lists_escape {c : Char} (hc : c.isAlphanum = false) : Lists ['\\', c] [.chr c] := by
  intro negated atoms v
  have hslash : lex (.cls negated atoms) ('\\' :: c :: v) =
      lex (.clsEscape negated atoms) (c :: v) :=
    lex_of_scan (by simp [scan, scan.scanClass])
  exact hslash.trans (lex_of_scan (by simp [scan, hc]))

theorem posixSyntax_name {name v : List Char} (halpha : ∀ c ∈ name, c.isAlpha = true) :
    posixSyntax ':' (name ++ ':' :: ']' :: v) = true := by
  induction name with
  | nil => simp [posixSyntax]
  | cons c name ih =>
    have hc := halpha c List.mem_cons_self
    have hrest := ih fun d hd => halpha d (List.mem_cons_of_mem c hd)
    have hslash : c ≠ '\\' := by rintro rfl; exact absurd hc (by decide)
    have hopen : c ≠ '[' := by rintro rfl; exact absurd hc (by decide)
    have hclose : c ≠ ']' := by rintro rfl; exact absurd hc (by decide)
    have hcolon : c ≠ ':' := by rintro rfl; exact absurd hc (by decide)
    cases name with
    | nil => simp [posixSyntax, hslash, hopen, hclose, hcolon]
    | cons d name =>
      rw [List.cons_append] at hrest ⊢
      rw [List.cons_append, posixSyntax]
      simp [hslash, hopen, hclose, hcolon, hrest]

theorem lex_name {negated : Bool} {atoms : List Atom} {letters u v : List Char}
    (hu : ∀ c ∈ u, c ≠ ']') (hlast : (letters ++ u).getLast? = some ':') :
    lex (.name negated atoms letters) (u ++ ']' :: v) =
      lex (.cls negated (atoms ++ [.posix (letters ++ u).tail.dropLast])) v := by
  induction u generalizing letters with
  | nil =>
    rw [List.append_nil] at hlast ⊢
    exact lex_of_scan (by simp [scan, hlast])
  | cons c u ih =>
    have hc := hu c List.mem_cons_self
    have hstep : lex (.name negated atoms letters) (c :: (u ++ ']' :: v)) =
        lex (.name negated atoms (letters ++ [c])) (u ++ ']' :: v) :=
      lex_of_scan (by simp [scan, hc])
    have happ : letters ++ c :: u = letters ++ [c] ++ u := by simp
    rw [List.cons_append, hstep, happ]
    exact ih (fun d hd => hu d (List.mem_cons_of_mem c hd)) (by rwa [← happ])

theorem lists_posix {name : List Char} (halpha : ∀ c ∈ name, c.isAlpha = true) :
    Lists ('[' :: ':' :: (name ++ [':', ']'])) [.posix name] := by
  intro negated atoms v
  have hopen : lex (.cls negated atoms) ('[' :: ':' :: (name ++ ':' :: ']' :: v)) =
      lex (.name negated atoms []) ((':' :: (name ++ [':'])) ++ ']' :: v) := by
    rw [show (':' :: (name ++ [':'])) ++ ']' :: v = ':' :: (name ++ ':' :: ']' :: v) by simp]
    exact lex_of_scan (by simp [scan, scan.scanClass, opensPosix, posixSyntax_name halpha])
  have hname : ∀ c ∈ ':' :: (name ++ [':']), c ≠ ']' := by
    intro c hc
    simp only [List.mem_cons, List.mem_append, List.not_mem_nil, or_false] at hc
    rcases hc with rfl | hc | rfl
    · decide
    · rintro rfl
      exact absurd (halpha _ hc) (by decide)
    · decide
  have happ : '[' :: ':' :: (name ++ [':', ']']) ++ v =
      '[' :: ':' :: (name ++ ':' :: ']' :: v) := by simp
  have hlast : ([] ++ ':' :: (name ++ [':'])).getLast? = some ':' := by
    rw [List.nil_append, ← List.cons_append, List.getLast?_concat]
  rw [happ, hopen, lex_name hname hlast, List.nil_append, List.tail_cons, List.dropLast_concat]

/-- The text reads as the tokens, unless with what follows it it cannot be read. -/
def Written (text : List Char) (toks : List Tok) : Prop :=
  ∀ v, lex .text (text ++ v) = none ∨ lex .text (text ++ v) = (toks ++ ·) <$> lex .text v

theorem Written.append {text text' : List Char} {toks toks' : List Tok} (h : Written text toks)
    (h' : Written text' toks') : Written (text ++ text') (toks ++ toks') := by
  intro v
  rw [List.append_assoc]
  rcases h (text' ++ v) with hnone | hsome
  · exact Or.inl hnone
  · rcases h' v with hnone' | hsome'
    · exact Or.inl (by rw [hsome, hnone']; rfl)
    · refine Or.inr ?_
      rw [hsome, hsome']
      cases lex .text v <;> simp

theorem written_of_lex {text : List Char} {toks : List Tok}
    (h : lex .text text = some toks) : Written text toks := fun _ => Or.inr (lex_append h)

theorem Written.eq {text : List Char} {toks toks' : List Tok} (h : Written text toks)
    (hlex : lex .text text = some toks') : toks' = toks := by
  rcases h [] with hnone | hsome
  · rw [List.append_nil, hlex] at hnone
    cases hnone
  · rw [List.append_nil, hlex] at hsome
    simpa [lex] using hsome

theorem lex_close {negated : Bool} {as : List Atom} (has : as ≠ []) (v : List Char) :
    lex (.cls negated as) (']' :: v) = (Tok.cls negated as :: ·) <$> lex .text v := by
  rw [lex]
  simp [scan, scan.scanClass, has]

theorem written_negated {text : List Char} {as : List Atom} (h : Lists text as) (has : as ≠ []) :
    Written ("[^".toList ++ text ++ "]".toList) [.cls true as] := by
  intro v
  have hopen : lex .text ('[' :: '^' :: (text ++ ']' :: v)) =
      lex .bracket ('^' :: (text ++ ']' :: v)) := lex_of_scan (by simp [scan, opensPosix])
  have hcaret : lex .bracket ('^' :: (text ++ ']' :: v)) =
      lex (.cls true []) (text ++ ']' :: v) := lex_of_scan (by simp [scan])
  have happ : "[^".toList ++ text ++ "]".toList ++ v = '[' :: '^' :: (text ++ ']' :: v) := by
    simp
  refine Or.inr ?_
  rw [happ, hopen, hcaret, h, List.nil_append, lex_close has]
  rfl

/-- A class that is not negated cannot be read where it looks like a POSIX class. -/
theorem written_class {text : List Char} {as : List Atom} (h : Lists text as) (has : as ≠ [])
    (hcaret : text.head? ≠ some '^') (hne : text ≠ []) :
    Written ("[".toList ++ text ++ "]".toList) [.cls false as] := by
  intro v
  obtain ⟨c, text, rfl⟩ := List.exists_cons_of_ne_nil hne
  have hc : c ≠ '^' := fun heq => hcaret (congrArg some heq)
  have happ : "[".toList ++ (c :: text) ++ "]".toList ++ v =
      '[' :: (c :: (text ++ ']' :: v)) := by simp
  rw [happ]
  by_cases hopens : opensPosix (c :: (text ++ ']' :: v)) = true
  · refine Or.inl ?_
    rw [lex]
    simp [scan, hopens]
  · have hopen : lex .text ('[' :: c :: (text ++ ']' :: v)) =
        lex .bracket (c :: (text ++ ']' :: v)) := lex_of_scan (by simp [scan, hopens])
    have hfirst : lex .bracket (c :: (text ++ ']' :: v)) =
        lex (.cls false []) ((c :: text) ++ ']' :: v) := by
      rw [List.cons_append, lex, lex]
      simp [scan, hc]
    refine Or.inr ?_
    rw [hopen, hfirst, h, List.nil_append, lex_close has]
    rfl

/-! ### What tokens add to an expression -/

section Tokens

open Regex

variable {posix : List Char → Option (Char → Bool)} {r s : Regex Char} {toks toks' : List Tok}

theorem matches_cat (r s : Regex Char) :
    Matches (.cat r s) = Relation.Comp (Matches r) (Matches s) := rfl

def Pushes (posix : List Char → Option (Char → Bool)) (toks : List Tok) (r : Regex Char) : Prop :=
  ∀ st, ∃ r', toks.foldlM (Parsed.step posix) st = some (st.push r') ∧ Matches r' = Matches r

def Adds (posix : List Char → Option (Char → Bool)) (toks : List Tok) (r : Regex Char) : Prop :=
  ∀ st, ∃ st', toks.foldlM (Parsed.step posix) st = some st' ∧ st'.outer = st.outer ∧
    st'.alts = st.alts ∧ Matches st'.flush = Relation.Comp (Matches st.flush) (Matches r)

theorem Pushes.adds (h : Pushes posix toks r) : Adds posix toks r := by
  intro st
  obtain ⟨r', hrun, heq⟩ := h st
  exact ⟨_, hrun, rfl, rfl, by rw [← heq]; rfl⟩

theorem Pushes.quantify (h : Pushes posix toks r) {t : Tok} {f : Regex Char → Regex Char}
    (ht : ∀ st, Parsed.step posix st t = st.quantify f)
    (hf : ∀ r', Matches r' = Matches r → Matches (f r') = Matches (f r)) :
    Adds posix (toks ++ [t]) (f r) := by
  intro st
  obtain ⟨r', hrun, heq⟩ := h st
  refine ⟨{ st with seq := .cat st.flush (f r'), last := none }, ?_, rfl, rfl, ?_⟩
  · rw [List.foldlM_append, hrun]
    simp [ht, Parsed.quantify, Parsed.push]
  · rw [← hf r' heq]
    rfl

theorem Pushes.star (h : Pushes posix toks r) : Adds posix (toks ++ [.star]) (.star r) :=
  h.quantify (fun _ => rfl) fun _ heq => by rw [Matches, Matches, heq]

theorem Pushes.opt (h : Pushes posix toks r) : Adds posix (toks ++ [.opt]) (.alt r .empty) :=
  h.quantify (f := fun r => .alt r .empty) (fun _ => rfl) fun _ heq => by
    simp only [Matches, heq]

theorem pushes_lit (c : Char) : Pushes posix [.lit c] (.one fun d => d == c) :=
  fun _ => ⟨_, rfl, rfl⟩

theorem pushes_dot : Pushes posix [.dot] (.one fun _ => true) := fun _ => ⟨_, rfl, rfl⟩

theorem pushes_cls {negated : Bool} {atoms : List Atom} {f : Char → Bool}
    (h : classOf posix atoms = some f) :
    Pushes posix [.cls negated atoms] (.one fun c => f c != negated) :=
  fun st => ⟨_, by simp [Parsed.step, h], rfl⟩

theorem adds_bos : Adds posix [.bos] .bos := fun _ => ⟨_, rfl, rfl, rfl, rfl⟩

theorem adds_eos : Adds posix [.eos] .eos := fun _ => ⟨_, rfl, rfl, rfl, rfl⟩

theorem adds_nil : Adds posix [] .empty :=
  fun st => ⟨st, rfl, rfl, rfl, (Relation.comp_eq).symm⟩

theorem Adds.append (h : Adds posix toks r) (h' : Adds posix toks' s) :
    Adds posix (toks ++ toks') (.cat r s) := by
  intro st
  obtain ⟨st', hrun, houter, halts, hflush⟩ := h st
  obtain ⟨st'', hrun', houter', halts', hflush'⟩ := h' st'
  refine ⟨st'', ?_, houter'.trans houter, halts'.trans halts, ?_⟩
  · rw [List.foldlM_append, hrun]
    exact hrun'
  · rw [hflush', hflush, matches_cat, Relation.comp_assoc]

theorem Adds.group (h : Adds posix toks r) : Pushes posix (.group :: (toks ++ [.close])) r := by
  intro st
  obtain ⟨st', hrun, houter, halts, hflush⟩ := h (st.open false)
  refine ⟨st'.join, ?_, ?_⟩
  · rw [List.foldlM_cons]
    simp only [Parsed.step, Option.bind_eq_bind, Option.bind_some]
    rw [List.foldlM_append, hrun]
    simp [Parsed.step, Parsed.close, houter, Parsed.open, Parsed.push, Parsed.flush]
  · rw [Parsed.join, halts]
    exact hflush.trans Relation.eq_comp

theorem Adds.ahead (h : Adds posix toks r) :
    Adds posix (.ahead :: (toks ++ [.close])) (.notAhead r) := by
  intro st
  obtain ⟨st', hrun, houter, halts, hflush⟩ := h (st.open true)
  have hjoin : Matches st'.join = Matches r := by
    rw [Parsed.join, halts]
    exact hflush.trans Relation.eq_comp
  refine ⟨Parsed.fix ⟨st.outer, st.alts, st.flush, none⟩ (.notAhead st'.join), ?_, rfl, rfl, ?_⟩
  · rw [List.foldlM_cons]
    simp only [Parsed.step, Option.bind_eq_bind, Option.bind_some]
    rw [List.foldlM_append, hrun]
    simp [Parsed.step, Parsed.close, houter, Parsed.open]
  · have hnot : Matches (.notAhead st'.join) = Matches (.notAhead r) := by
      simp only [Matches, hjoin]
    rw [← hnot]
    rfl

theorem Adds.group_bar (h : Adds posix toks r) (h' : Adds posix toks' s) :
    Pushes posix (.group :: (toks ++ .bar :: (toks' ++ [.close]))) (.alt r s) := by
  intro st
  obtain ⟨st', hrun, houter, halts, hflush⟩ := h (st.open false)
  obtain ⟨st'', hrun', houter', halts', hflush'⟩ :=
    h' { st' with alts := some st'.join, seq := .empty, last := none }
  refine ⟨st''.join, ?_, ?_⟩
  · rw [List.foldlM_cons]
    simp only [Parsed.step, Option.bind_eq_bind, Option.bind_some]
    rw [List.foldlM_append, hrun]
    simp only [Option.bind_eq_bind, Option.bind_some, List.foldlM_cons, Parsed.step]
    rw [List.foldlM_append, hrun']
    simp [Parsed.step, Parsed.close, houter', houter, Parsed.open, Parsed.push, Parsed.flush]
  · have hleft : Matches st'.join = Matches r := by
      rw [Parsed.join, halts]
      exact hflush.trans Relation.eq_comp
    have hright : Matches st''.flush = Matches s := hflush'.trans Relation.eq_comp
    rw [Parsed.join, halts']
    simp only [Matches, hleft, hright]

theorem compile_eq_some {text : List Char} :
    compile posix text = some r ↔ ∃ toks st, lex .text text = some toks ∧
      toks.foldlM (Parsed.step posix) .start = some st ∧ st.outer = [] ∧ st.join = r := by
  simp only [compile, Option.bind_eq_bind, Option.bind_eq_some_iff, Option.ite_none_right_eq_some,
    List.isEmpty_iff, Option.some.injEq]
  constructor
  · rintro ⟨toks, hlex, st, hrun, houter, hjoin⟩
    exact ⟨toks, st, hlex, hrun, houter, hjoin⟩
  · rintro ⟨toks, st, hlex, hrun, houter, hjoin⟩
    exact ⟨toks, hlex, st, hrun, houter, hjoin⟩

theorem compile_of_adds {text : List Char} (hlex : lex .text text = some toks)
    (h : Adds posix toks r) : ∃ r', compile posix text = some r' ∧ Matches r' = Matches r := by
  obtain ⟨st, hrun, houter, halts, hflush⟩ := h .start
  refine ⟨st.join, compile_eq_some.mpr ⟨toks, st, hlex, hrun, houter, rfl⟩, ?_⟩
  rw [Parsed.join, halts]
  exact hflush.trans Relation.eq_comp

theorem foldlM_of_classOf {negated : Bool} {atoms : List Atom} (hmem : .cls negated atoms ∈ toks)
    (hclass : classOf posix atoms = none) (st : Parsed) :
    toks.foldlM (Parsed.step posix) st = none := by
  induction toks generalizing st with
  | nil => cases hmem
  | cons t toks ih =>
    rw [List.foldlM_cons]
    rcases List.mem_cons.mp hmem with rfl | hmem
    · simp [Parsed.step, hclass]
    · cases Parsed.step posix st t with
      | none => rfl
      | some st' => exact ih hmem st'

def Parsed.under (st : Parsed) (frames : List Frame) : Parsed :=
  { st with outer := st.outer ++ frames }

theorem step_under {st st' : Parsed} {t : Tok} (frames : List Frame)
    (h : Parsed.step posix st t = some st') :
    Parsed.step posix (st.under frames) t = some (st'.under frames) := by
  cases t with
  | star =>
    obtain ⟨r, hlast, rfl⟩ := Option.map_eq_some_iff.mp h
    exact Option.map_eq_some_iff.mpr ⟨r, hlast, rfl⟩
  | opt =>
    obtain ⟨r, hlast, rfl⟩ := Option.map_eq_some_iff.mp h
    exact Option.map_eq_some_iff.mpr ⟨r, hlast, rfl⟩
  | close =>
    obtain ⟨outer, alts, seq, last⟩ := st
    cases outer with
    | nil => cases h
    | cons frame outer =>
      rw [← Option.some.inj h]
      simp only [Parsed.step, Parsed.close, Parsed.under, List.cons_append]
      split_ifs <;> rfl
  | cls negated atoms =>
    obtain ⟨f, hf, rfl⟩ := Option.map_eq_some_iff.mp h
    exact Option.map_eq_some_iff.mpr ⟨f, hf, rfl⟩
  | bos => exact Option.some.inj h ▸ rfl
  | eos => exact Option.some.inj h ▸ rfl
  | dot => exact Option.some.inj h ▸ rfl
  | group => exact Option.some.inj h ▸ rfl
  | ahead => exact Option.some.inj h ▸ rfl
  | bar => exact Option.some.inj h ▸ rfl
  | lit c => exact Option.some.inj h ▸ rfl

theorem foldlM_under {st st' : Parsed} (frames : List Frame)
    (h : toks.foldlM (Parsed.step posix) st = some st') :
    toks.foldlM (Parsed.step posix) (st.under frames) = some (st'.under frames) := by
  induction toks generalizing st with
  | nil => exact Option.some.inj h ▸ rfl
  | cons t toks ih =>
    rw [List.foldlM_cons, Option.bind_eq_bind, Option.bind_eq_some_iff] at h
    obtain ⟨m, hstep, hrun⟩ := h
    rw [List.foldlM_cons, step_under frames hstep]
    exact ih hrun

/-- Every text that compiles does so in a group, to the same expression. -/
theorem pushes_of_compile {text : List Char} (h : compile posix text = some r) :
    ∃ toks, lex .text text = some toks ∧ Pushes posix (.group :: (toks ++ [.close])) r := by
  obtain ⟨toks, st', hlex, hrun, houter, rfl⟩ := compile_eq_some.mp h
  refine ⟨toks, hlex, fun st => ⟨st'.join, ?_, rfl⟩⟩
  rw [List.foldlM_cons]
  simp only [Parsed.step, Option.bind_eq_bind, Option.bind_some]
  rw [show st.open false = Parsed.start.under (⟨false, st.alts, st.flush⟩ :: st.outer) from rfl,
    List.foldlM_append, foldlM_under _ hrun]
  simp [Parsed.step, Parsed.close, Parsed.under, houter, Parsed.push, Parsed.flush, Parsed.join]

/-- Texts as the alternatives of one expression, each in a group of its own. -/
def alternation (texts : List (List Char)) : List Char :=
  ['|'].intercalate (texts.map fun t => "(?:".toList ++ t ++ ")".toList)

theorem lex_group {text v : List Char} (hlex : lex .text text = some toks) :
    lex .text ("(?:".toList ++ text ++ ")".toList ++ v) =
      ((.group :: (toks ++ [.close])) ++ ·) <$> lex .text v := by
  have hclose : lex .text (')' :: v) = (Tok.close :: ·) <$> lex .text v := by
    simp [lex, scan, bare]
  have hopen : ∀ s, lex .text ('(' :: '?' :: ':' :: s) = (Tok.group :: ·) <$> lex .text s := by
    intro s
    simp [lex, scan, Function.comp_def]
  have happ : "(?:".toList ++ text ++ ")".toList ++ v =
      '(' :: '?' :: ':' :: (text ++ ')' :: v) := by simp
  rw [happ, hopen, lex_append hlex, hclose]
  cases lex .text v <;> simp

theorem alternation_cons (t t' : List Char) (texts : List (List Char)) :
    alternation (t :: t' :: texts) =
      "(?:".toList ++ t ++ ")".toList ++ '|' :: alternation (t' :: texts) := by
  simp [alternation, List.intercalate]

def MatchesOne (posix : List Char → Option (Char → Bool)) (texts : List (List Char))
    (p q : Pos Char) : Prop :=
  ∃ t ∈ texts, ∃ r, compile posix t = some r ∧ Matches r p q

theorem lex_alternation {texts : List (List Char)} (hne : texts ≠ [])
    (hall : ∀ t ∈ texts, (compile posix t).isSome) :
    ∃ toks, lex .text (alternation texts) = some toks ∧ ∀ outer alts, ∃ st',
      toks.foldlM (Parsed.step posix) ⟨outer, alts, .empty, none⟩ = some st' ∧
        st'.outer = outer ∧ ∀ p q, Matches st'.join p q ↔
          (∃ a ∈ alts, Matches a p q) ∨ MatchesOne posix texts p q := by
  induction texts with
  | nil => exact absurd rfl hne
  | cons t texts ih =>
    obtain ⟨r, hr⟩ := Option.isSome_iff_exists.mp (hall t List.mem_cons_self)
    obtain ⟨toks, hlex, hpush⟩ := pushes_of_compile hr
    have hjoin : ∀ (outer : List Frame) alts r', Matches r' = Matches r → ∀ p q,
        Matches (Parsed.push ⟨outer, alts, .empty, none⟩ r').join p q ↔
          (∃ a ∈ alts, Matches a p q) ∨ Matches r p q := by
      intro outer alts r' heq p q
      have hflush : Matches (Regex.cat .empty r') = Matches r := by
        rw [matches_cat, heq]
        exact Relation.eq_comp
      cases alts with
      | none =>
        change Matches (Regex.cat .empty r') p q ↔ _
        simp [hflush]
      | some a =>
        change Matches a p q ∨ Matches (Regex.cat .empty r') p q ↔ _
        simp [hflush]
    have hone : ∀ p q, MatchesOne posix (t :: texts) p q ↔
        Matches r p q ∨ MatchesOne posix texts p q := by
      intro p q
      simp [MatchesOne, hr]
    cases texts with
    | nil =>
      refine ⟨.group :: (toks ++ [.close]), ?_, fun outer alts => ?_⟩
      · have halt : alternation [t] = "(?:".toList ++ t ++ ")".toList ++ [] := by
          simp [alternation, List.intercalate]
        rw [halt, lex_group hlex]
        simp [lex]
      · obtain ⟨r', hrun, heq⟩ := hpush ⟨outer, alts, .empty, none⟩
        refine ⟨_, hrun, rfl, fun p q => ?_⟩
        rw [hjoin outer alts r' heq, hone]
        simp [MatchesOne]
    | cons t' texts =>
      obtain ⟨toks', hlex', hruns⟩ := ih (by simp) fun u hu => hall u (List.mem_cons_of_mem t hu)
      have hbar : lex .text ('|' :: alternation (t' :: texts)) = some (.bar :: toks') := by
        rw [lex]
        simp [scan, bare, hlex']
      refine ⟨(.group :: (toks ++ [.close])) ++ .bar :: toks', ?_, fun outer alts => ?_⟩
      · rw [alternation_cons, lex_group hlex, hbar]
        rfl
      · obtain ⟨r', hrun, heq⟩ := hpush ⟨outer, alts, .empty, none⟩
        obtain ⟨st', hrun', houter, hmatch⟩ :=
          hruns outer (some (Parsed.push ⟨outer, alts, .empty, none⟩ r').join)
        refine ⟨st', ?_, houter, fun p q => ?_⟩
        · rw [List.foldlM_append, hrun]
          exact hrun'
        · rw [hmatch, hone]
          simp [hjoin outer alts r' heq, or_assoc]

/-- Texts that compile do so as the alternatives of one expression. -/
theorem compile_alternation {texts : List (List Char)} (hne : texts ≠ [])
    (hall : ∀ t ∈ texts, (compile posix t).isSome) :
    ∃ r, compile posix (alternation texts) = some r ∧
      ∀ p q, Matches r p q ↔ MatchesOne posix texts p q := by
  obtain ⟨toks, hlex, hruns⟩ := lex_alternation hne hall
  obtain ⟨st, hrun, houter, hmatch⟩ := hruns [] none
  refine ⟨st.join, compile_eq_some.mpr ⟨toks, st, hlex, hrun, houter, rfl⟩, fun p q => ?_⟩
  rw [hmatch]
  simp

end Tokens

end Pcre
