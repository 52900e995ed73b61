import Oans.PcreSyntax
import Mathlib.Data.List.DropRight

/-!
# Exclude patterns

The pattern language of `--exclude`: what the text of a pattern spells, and the paths it denotes.
A class is read as the classes of the expressions are; whatever it lists, it matches no separator.
-/

namespace Oans

open Pcre (Atom)

namespace Glob

/-- Whether a bracket in a class stands before the name of a POSIX class. -/
def OpensName (s : List Char) : Prop :=
  ∃ name rest, name ≠ [] ∧ (∀ c ∈ name, c.isAlpha = true) ∧ s = ':' :: (name ++ ':' :: ']' :: rest)

inductive ClassText : List Char → List Atom → List Char → Prop where
  | close {rest : List Char} : ClassText (']' :: rest) [] rest
  | posix {name s rest : List Char} {as : List Atom} (hne : name ≠ [])
      (halpha : ∀ c ∈ name, c.isAlpha = true) (h : ClassText s as rest) :
      ClassText ('[' :: ':' :: (name ++ ':' :: ']' :: s)) (.posix name :: as) rest
  | escape {c : Char} {s rest : List Char} {as : List Atom} (h : ClassText s as rest) :
      ClassText ('\\' :: c :: s) (.chr c :: as) rest
  | dash {s rest : List Char} {as : List Atom} (h : ClassText s as rest) :
      ClassText ('-' :: s) (.dash :: as) rest
  | chr {c : Char} {s rest : List Char} {as : List Atom} (hclose : c ≠ ']') (hslash : c ≠ '\\')
      (hdash : c ≠ '-') (hname : c = '[' → ¬ OpensName s) (h : ClassText s as rest) :
      ClassText (c :: s) (.chr c :: as) rest

/-- A bracket that comes first is one of the characters. -/
inductive ClassBody : List Char → List Atom → List Char → Prop where
  | bracket {s rest : List Char} {as : List Atom} (h : ClassText s as rest) :
      ClassBody (']' :: s) (.chr ']' :: as) rest
  | plain {s rest : List Char} {as : List Atom} (hfirst : s.head? ≠ some ']')
      (h : ClassText s as rest) : ClassBody s as rest

inductive Class : List Char → Bool → List Atom → List Char → Prop where
  | negated {c : Char} {s rest : List Char} {as : List Atom} (hmark : c = '!' ∨ c = '^')
      (h : ClassBody s as rest) : Class (c :: s) true as rest
  | plain {s rest : List Char} {as : List Atom}
      (hmark : s.head? ≠ some '!' ∧ s.head? ≠ some '^') (h : ClassBody s as rest) :
      Class s false as rest

theorem ClassText.suffix {s rest : List Char} {as : List Atom} (h : ClassText s as rest) :
    rest <:+ s := by
  induction h with
  | close => exact List.suffix_cons _ _
  | @posix name s rest as _ _ _ ih =>
    refine ih.trans ⟨'[' :: ':' :: (name ++ [':', ']']), ?_⟩
    simp only [List.cons_append, List.append_assoc, List.nil_append]
  | escape _ ih => exact ih.trans ⟨[_, _], rfl⟩
  | dash _ ih => exact ih.trans (List.suffix_cons _ _)
  | chr _ _ _ _ _ ih => exact ih.trans (List.suffix_cons _ _)

theorem ClassBody.suffix {s rest : List Char} {as : List Atom} (h : ClassBody s as rest) :
    rest <:+ s := by
  cases h with
  | bracket h => exact h.suffix.trans (List.suffix_cons _ _)
  | plain _ h => exact h.suffix

theorem Class.suffix {s rest : List Char} {negated : Bool} {as : List Atom}
    (h : Class s negated as rest) : rest <:+ s := by
  cases h with
  | negated _ h => exact h.suffix.trans (List.suffix_cons _ _)
  | plain _ h => exact h.suffix

inductive Token where
  | lit (c : Char)
  | any
  | star
  | dstar
  | dirs
  | cls (negated : Bool) (atoms : List Atom)

/-- What a pattern spells: a run of stars is one of them or more, and more of them before a
separator take it with them. -/
inductive Spells : List Char → List Token → Prop where
  | nil : Spells [] []
  | lit {c : Char} {s : List Char} {ts : List Token}
      (hc : c ≠ '*' ∧ c ≠ '?' ∧ c ≠ '[' ∧ c ≠ '\\') (h : Spells s ts) :
      Spells (c :: s) (.lit c :: ts)
  | escape {c : Char} {s : List Char} {ts : List Token} (h : Spells s ts) :
      Spells ('\\' :: c :: s) (.lit c :: ts)
  | backslash : Spells ['\\'] [.lit '\\']
  | any {s : List Char} {ts : List Token} (h : Spells s ts) : Spells ('?' :: s) (.any :: ts)
  | star {s : List Char} {ts : List Token} (hnext : s.head? ≠ some '*') (h : Spells s ts) :
      Spells ('*' :: s) (.star :: ts)
  | dirs {k : ℕ} {s : List Char} {ts : List Token} (h : Spells s ts) :
      Spells (List.replicate (k + 2) '*' ++ '/' :: s) (.dirs :: ts)
  | dstar {k : ℕ} {s : List Char} {ts : List Token}
      (hnext : s.head? ≠ some '*' ∧ s.head? ≠ some '/') (h : Spells s ts) :
      Spells (List.replicate (k + 2) '*' ++ s) (.dstar :: ts)
  | cls {s rest : List Char} {negated : Bool} {as : List Atom} {ts : List Token}
      (hclass : Class s negated as rest) (h : Spells rest ts) :
      Spells ('[' :: s) (.cls negated as :: ts)

def directories : Language Char := {u | u = [] ∨ ∃ x, u = x ++ ['/']}

section Language

variable (posix : List Char → Option (Char → Bool))

def Token.language : Token → Language Char
  | lit c => {w | w = [c]}
  | any => {w | ∃ c, c ≠ '/' ∧ w = [c]}
  | star => {w | '/' ∉ w}
  | dstar => ⊤
  | dirs => directories
  | cls negated atoms =>
    {w | ∃ c f, w = [c] ∧ c ≠ '/' ∧ Pcre.classOf posix atoms = some f ∧ f c ≠ negated}

def language (ts : List Token) : Language Char := (ts.map (Token.language posix)).prod

/-- The paths a pattern excludes. One that starts with a separator is compared with the whole
path, any other with what follows some directories; one that ends with a separator is for
directories only. -/
def Denotes (pattern : List Char) (isDir : Bool) (path : List Char) : Prop :=
  (pattern.getLast? = some '/' → isDir = true) ∧
    ∃ ts, Spells (pattern.rdropWhile (· == '/')) ts ∧
      path ∈ if pattern.head? = some '/' then language posix ts
        else directories * language posix ts

variable {posix}

@[simp] theorem language_nil : language posix [] = 1 := rfl

@[simp] theorem language_cons (t : Token) (ts : List Token) :
    language posix (t :: ts) = t.language posix * language posix ts := rfl

theorem mem_directories {u : List Char} :
    u ∈ directories ↔ u = [] ∨ ∃ x, u = x ++ ['/'] := Iff.rfl

/-- Without a separator in its text and without `**`, a pattern spells no word with one. -/
theorem separator_notMem {s : List Char} {ts : List Token} (h : Spells s ts) (hs : '/' ∉ s)
    (hstars : Token.dstar ∉ ts) {w : List Char} (hw : w ∈ language posix ts) : '/' ∉ w := by
  induction ts generalizing s w with
  | nil =>
    obtain rfl : w = [] := hw
    exact List.not_mem_nil
  | cons t ts ih =>
    obtain ⟨u, hu, v, hv, rfl⟩ := Language.mem_mul.mp hw
    have htail : ∀ {s'}, Spells s' ts → '/' ∉ s' → '/' ∉ v := fun hs' hmem =>
      ih hs' hmem (fun hmem => hstars (List.mem_cons_of_mem t hmem)) hv
    rw [List.mem_append, not_or]
    cases h with
    | @lit c s' _ hc h =>
      rw [List.mem_cons, not_or] at hs
      obtain rfl : u = [c] := hu
      exact ⟨by simpa using hs.1, htail h hs.2⟩
    | @escape c s' _ h =>
      simp only [List.mem_cons, not_or] at hs
      obtain rfl : u = [c] := hu
      exact ⟨by simpa using hs.2.1, htail h hs.2.2⟩
    | backslash =>
      obtain rfl : u = ['\\'] := hu
      exact ⟨by decide, htail .nil List.not_mem_nil⟩
    | any h =>
      obtain ⟨c, hc, rfl⟩ := hu
      exact ⟨by simpa using hc.symm, htail h fun hmem => hs (List.mem_cons_of_mem _ hmem)⟩
    | star _ h => exact ⟨hu, htail h fun hmem => hs (List.mem_cons_of_mem _ hmem)⟩
    | dirs h => exact absurd (List.mem_append_right _ List.mem_cons_self) hs
    | dstar _ h => exact absurd List.mem_cons_self hstars
    | @cls s' rest _ _ _ hclass h =>
      obtain ⟨c, f, rfl, hc, -⟩ := hu
      exact ⟨by simpa using hc.symm, htail h fun hmem =>
        hs (List.mem_cons_of_mem _ (hclass.suffix.subset hmem))⟩

theorem rtakeWhile_directories {u v : List Char} (hu : u ∈ directories) (hv : '/' ∉ v) :
    (u ++ v).rtakeWhile (· != '/') = v := by
  have hall : ∀ c ∈ v.reverse, (c != '/') = true := fun c hc =>
    bne_iff_ne.mpr fun heq => hv (heq ▸ List.mem_reverse.mp hc)
  rw [List.rtakeWhile, List.reverse_append, List.takeWhile_append_of_pos hall]
  rcases hu with rfl | ⟨x, rfl⟩
  · simp
  · simp

/-- What follows the last separator is the name of a path. -/
theorem rdropWhile_mem_directories (w : List Char) :
    w.rdropWhile (· != '/') ∈ directories := by
  rcases eq_or_ne (w.rdropWhile (· != '/')) [] with h | h
  · exact Or.inl h
  · have hlast := List.rdropWhile_last_not (· != '/') w h
    refine Or.inr ⟨(w.rdropWhile (· != '/')).dropLast, ?_⟩
    conv_lhs => rw [← List.dropLast_append_getLast h]
    simpa using hlast

/-- A pattern without a separator, other than at its end, and without `**` excludes the paths
whose name is one of its words. -/
theorem denotes_basename (pattern : List Char) {ts : List Token}
    (hs : '/' ∉ pattern.rdropWhile (· == '/')) (h : Spells (pattern.rdropWhile (· == '/')) ts)
    (hstars : Token.dstar ∉ ts) (w : List Char) :
    w ∈ directories * language posix ts ↔ w.rtakeWhile (· != '/') ∈ language posix ts := by
  constructor
  · intro hw
    obtain ⟨u, hu, v, hv, rfl⟩ := Language.mem_mul.mp hw
    rw [rtakeWhile_directories hu (separator_notMem h hs hstars hv)]
    exact hv
  · intro hw
    exact Language.mem_mul.mpr ⟨_, rdropWhile_mem_directories w, _, hw,
      List.rdropWhile_append_rtakeWhile⟩

end Language

end Glob

end Oans
