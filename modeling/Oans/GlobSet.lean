import Oans.GlobLanguage
import Oans.Utf8

/-!
# The set of exclude patterns

Every pattern is compiled twice, by characters for the paths that are UTF-8 and by bytes for the
others, and all of them are joined into one expression of each kind. A path is looked up among the
literal ones, then matched with the joined expression, and only if that matches with one pattern
after the other.
-/

namespace Oans

open Pcre (alternation)

namespace Glob

/-- The bytes of a string as characters. -/
def latin1 (s : List UInt8) : List Char := s.map fun b => Char.ofNat b.toNat

def bytes (s : List Char) : List UInt8 := s.map fun c => UInt8.ofNat c.toNat

/-- GRegex, which is not read here: the POSIX classes it knows by characters and by bytes, what it
makes of a text or why it refuses it, and what it answers for a path, `none` where it gives up. -/
structure Engine where
  Code : Type
  posix : Bool → List Char → Option (Char → Bool)
  compile : Bool → List UInt8 → Except (List UInt8) Code
  exec : Bool → Code → List UInt8 → Option Bool

def form (raw : Bool) (s : List UInt8) : Option (List Char) :=
  if raw then some (latin1 s) else Utf8.decode s

structure GRegex (eng : Engine) where
  pattern : List UInt8
  code : eng.Code

def Engine.regexNew (eng : Engine) (raw : Bool) (pattern : List UInt8) :
    Except (List UInt8) (GRegex eng) :=
  (eng.compile raw pattern).map fun code => ⟨pattern, code⟩

/-- `g_regex_match()`, which is false of a path that it gives up on. -/
def GRegex.isMatch {eng : Engine} (raw : Bool) (g : GRegex eng) (path : List UInt8) : Bool :=
  (eng.exec raw g.code path).getD false

structure GlobPat (eng : Engine) where
  pattern : List UInt8
  re : Option (GRegex eng)
  reRaw : Option (GRegex eng)
  dirOnly : Bool
  internal : Bool
  matched : Bool

/-- `struct glob_set`, with the place of a pattern for a pointer to it. -/
structure GlobSet (eng : Engine) where
  pats : List (GlobPat eng)
  literals : List (List UInt8 × ℕ)
  re : Option (GRegex eng)
  reRaw : Option (GRegex eng)

def isPlainPath (pat : List UInt8) : Bool :=
  let pat := latin1 pat
  pat.head? == some '/' && pat.all (fun c => !("*?[\\".toList.contains c)) &&
    pat.getLast? != some '/'

section Set

variable {eng : Engine}

namespace GlobPat

def isLiteral (gp : GlobPat eng) : Bool := gp.re.isNone && gp.reRaw.isNone

def regex (gp : GlobPat eng) (raw : Bool) : Option (GRegex eng) := if raw then gp.reRaw else gp.re

def hits (gp : GlobPat eng) (path : List UInt8) (isDir raw : Bool) : Bool :=
  match gp.regex raw with
  | none => false
  | some re => !(gp.dirOnly && !isDir) && re.isMatch raw path

end GlobPat

namespace GlobSet

def new : GlobSet eng := ⟨[], [], none, none⟩

def regex (gs : GlobSet eng) (raw : Bool) : Option (GRegex eng) := if raw then gs.reRaw else gs.re

def patFind (gs : GlobSet eng) (pattern : List UInt8) (literal : Bool) : Option ℕ :=
  gs.pats.findIdx? fun gp => gp.isLiteral == literal && gp.pattern == pattern

def addLiteral (gs : GlobSet eng) (path : List UInt8) (internal : Bool) : GlobSet eng :=
  match gs.patFind path true with
  | some i =>
    { gs with pats := gs.pats.modify i fun gp => { gp with internal := gp.internal && internal } }
  | none =>
    { gs with
      pats := gs.pats ++ [⟨path, none, none, false, internal, false⟩]
      literals := (path, gs.pats.length) :: gs.literals }

/-- The expressions of both kinds of a pattern; one by characters only of what is UTF-8. -/
def patRegexes (frag : List UInt8) :
    Except (List UInt8) (Option (GRegex eng) × GRegex eng) := do
  let re ← if (Utf8.decode frag).isSome then some <$> eng.regexNew false frag else .ok none
  let reRaw ← eng.regexNew true frag
  .ok (re, reRaw)

/-- `glob_set_add()`. What the set holds after a failure is left to a process about to exit. -/
def add (gs : GlobSet eng) (pattern : List UInt8) : Except (List UInt8) (GlobSet eng) :=
  if isPlainPath pattern then .ok (gs.addLiteral pattern false)
  else if (gs.patFind pattern false).isSome then .ok gs
  else
    match globToRegex (latin1 pattern) with
    | .error err => .error (bytes err)
    | .ok (frag, dirOnly) =>
      match patRegexes (bytes frag) with
      | .error msg =>
        .error (bytes "bad exclude pattern \"".toList ++ pattern ++ bytes "\": ".toList ++ msg)
      | .ok (re, reRaw) =>
        .ok { gs with pats := gs.pats ++ [⟨pattern, re, some reRaw, dirOnly, false, false⟩] }

def alternationBytes (texts : List (List UInt8)) : List UInt8 :=
  (bytes "|".toList).intercalate
    (texts.map fun t => bytes "(?:".toList ++ t ++ bytes ")".toList)

def compileOne (gs : GlobSet eng) (raw : Bool) : Except (List UInt8) (Option (GRegex eng)) :=
  let texts := (gs.pats.filterMap fun gp => gp.regex raw).map GRegex.pattern
  if texts = [] then .ok none
  else
    match eng.regexNew raw (alternationBytes texts) with
    | .error msg => .error (bytes "combining exclude patterns: ".toList ++ msg)
    | .ok re => .ok (some re)

def compile (gs : GlobSet eng) : Except (List UInt8) (GlobSet eng) := do
  let re ← gs.compileOne false
  let reRaw ← gs.compileOne true
  .ok { gs with re := re, reRaw := reRaw }

/-- `attribute()` -/
def attributed (gs : GlobSet eng) (path : List UInt8) (isDir raw : Bool) : Option ℕ :=
  gs.pats.findIdx? fun gp => gp.hits path isDir raw

def credited (gs : GlobSet eng) (path : List UInt8) (isDir : Bool) : Option ℕ :=
  match gs.literals.lookup path with
  | some i => some i
  | none =>
    let raw := (Utf8.decode path).isNone
    match gs.regex raw with
    | none => none
    | some re => if re.isMatch raw path then gs.attributed path isDir raw else none

/-- `glob_set_match()`: whether, by which pattern, and the set with that one marked. -/
def globSetMatch (gs : GlobSet eng) (path : List UInt8) (isDir : Bool) :
    Bool × Option (List UInt8) × GlobSet eng :=
  match gs.credited path isDir with
  | none => (false, none, gs)
  | some i =>
    (true, (gs.pats[i]?).map (·.pattern),
      { gs with pats := gs.pats.modify i fun gp => { gp with matched := true } })

def stat (gs : GlobSet eng) (i : ℕ) : Option (List UInt8 × Bool) :=
  ((gs.pats.filter fun gp => !gp.internal)[i]?).map fun gp => (gp.pattern, gp.matched)

end GlobSet

end Set

/-! ### Strings read by characters and by bytes -/

theorem bytes_latin1 (s : List UInt8) : bytes (latin1 s) = s := by
  simp only [bytes, latin1, List.map_map]
  refine (List.map_congr_left fun b _ => ?_).trans (List.map_id s)
  have hvalid : b.toNat.isValidChar := Or.inl (by have := b.toNat_lt; omega)
  have hchar : (Char.ofNat b.toNat).toNat = b.toNat := by
    rw [Char.ofNat, dif_pos hvalid]
    rfl
  simp only [Function.comp_apply, hchar, UInt8.ofNat_toNat, id]

theorem latin1_bytes {s : List Char} (h : Below 256 s) : latin1 (bytes s) = s := by
  simp only [bytes, latin1, List.map_map]
  refine (List.map_congr_left fun c hc => ?_).trans (List.map_id s)
  simp only [Function.comp_apply, Utf8.toNat_ofNat_of_lt (h c hc), Char.ofNat_toNat, id]

theorem toNat_lt_of_mem_latin1 {s : List UInt8} {c : Char} (h : c ∈ latin1 s) : c.toNat < 256 := by
  obtain ⟨b, -, rfl⟩ := List.mem_map.mp h
  have hlt := b.toNat_lt
  have hvalid : b.toNat.isValidChar := Or.inl (by omega)
  rw [Char.ofNat, dif_pos hvalid]
  exact hlt

theorem latin1_append (s t : List UInt8) : latin1 (s ++ t) = latin1 s ++ latin1 t :=
  List.map_append

def written (raw : Bool) (c : Char) : List Char := if raw then [c] else latin1 (Utf8.encode c)

theorem latin1_flatMap (cs : List Char) :
    latin1 (cs.flatMap Utf8.encode) = cs.flatMap (written false) := by
  induction cs with
  | nil => rfl
  | cons c cs ih =>
    rw [List.flatMap_cons, latin1_append, ih]
    rfl

theorem coding_written (raw : Bool) : Coding (written raw) := by
  cases raw with
  | true => exact coding_bytes
  | false =>
    refine ⟨fun c hc => ?_, fun c hc => ⟨?_, fun d hd => ?_⟩, fun s t h => ?_⟩
    · change latin1 (Utf8.encode c) = _
      rw [Utf8.encode_of_lt hc, latin1, List.map_singleton, Utf8.toNat_ofNat_of_lt (by omega),
        Char.ofNat_toNat]
    · exact fun hnil => Utf8.encode_ne_nil c (List.map_eq_nil_iff.mp hnil)
    · obtain ⟨b, hb, rfl⟩ := List.mem_map.mp hd
      have hle := Utf8.le_of_mem_encode hc hb
      have hvalid : b.toNat.isValidChar := Or.inl (by have := b.toNat_lt; omega)
      rw [Char.ofNat, dif_pos hvalid]
      exact hle
    · rw [← latin1_flatMap, ← latin1_flatMap] at h
      have := congrArg bytes h
      rw [bytes_latin1, bytes_latin1] at this
      exact Utf8.flatMap_encode_inj this

theorem form_eq_some {raw : Bool} {s : List UInt8} {cs : List Char} :
    form raw s = some cs ↔ latin1 s = cs.flatMap (written raw) := by
  cases raw with
  | true =>
    have hid : cs.flatMap (written true) = cs := List.flatMap_singleton' cs
    rw [hid]
    exact Option.some_inj
  | false =>
    change Utf8.decode s = some cs ↔ _
    rw [Utf8.decode_eq_some, ← latin1_flatMap]
    constructor
    · rintro rfl
      rfl
    · intro h
      have := congrArg bytes h
      rwa [bytes_latin1, bytes_latin1] at this

/-! ### One pattern -/

def TailChar (c : Char) : Prop := 0x80 ≤ c.toNat ∧ c.toNat ≤ 0xbf

theorem framed_written : Framed (written false) TailChar where
  toCoding := coding_written false
  lead c := by
    have htail : ∀ b : UInt8, TailChar (Char.ofNat b.toNat) ↔ Utf8.IsTail b := by
      intro b
      have hvalid : b.toNat.isValidChar := Or.inl (by have := b.toNat_lt; omega)
      have hchar : (Char.ofNat b.toNat).toNat = b.toNat := by
        rw [Char.ofNat, dif_pos hvalid]
        rfl
      rw [TailChar, hchar, Utf8.IsTail, UInt8.le_iff_toNat_le, UInt8.le_iff_toNat_le]
      rfl
    obtain ⟨b, bs, hbs, hlead, hrest⟩ := Utf8.encode_eq_cons c
    refine ⟨Char.ofNat b.toNat, latin1 bs, ?_, (htail b).not.mpr hlead, fun e he => ?_⟩
    · change latin1 (Utf8.encode c) = _
      rw [hbs]
      rfl
    · obtain ⟨b', hb', rfl⟩ := List.mem_map.mp he
      exact (htail b').mpr (hrest b' hb')

/-- A pattern in which a backslash stands before whole characters, and no class changes its meaning
behind a separator. -/
structure Ordinary (pattern : List UInt8) : Prop where
  untorn : Untorn TailChar (latin1 pattern)
  slashSafe : ∀ raw pcs, form raw pattern = some pcs → SlashSafe pcs

/-- A pattern that is UTF-8 and in which no negated class starts with a hyphen. -/
theorem ordinary_of_decode {pattern : List UInt8} (h : (Utf8.decode pattern).isSome)
    (hhyphen : ∀ c, c = '!' ∨ c = '^' → ¬ ['[', c, '-'] <:+: latin1 pattern) :
    Ordinary pattern := by
  obtain ⟨cs, hcs⟩ := Option.isSome_iff_exists.mp h
  refine ⟨framed_written.untorn ⟨cs, form_eq_some.mp hcs⟩, fun raw pcs hpcs => ?_⟩
  refine slashSafe_of_not_infix fun c hc hinfix => hhyphen c hc ?_
  obtain ⟨u, v, rfl⟩ := hinfix
  have hascii : Below 0x80 ['[', c, '-'] := by
    rcases hc with rfl | rfl <;> decide
  refine ⟨u.flatMap (written raw), v.flatMap (written raw), ?_⟩
  rw [form_eq_some.mp hpcs, List.flatMap_append, List.flatMap_append,
    (coding_written raw).ascii_eq hascii]

/-- Whether a pattern excludes a path: by characters if the whole path is UTF-8, else by bytes. -/
def Excludes (eng : Engine) (pattern : List UInt8) (isDir : Bool) (path : List UInt8) : Prop :=
  let raw := (Utf8.decode path).isNone
  ∃ pcs cs, form raw pattern = some pcs ∧ form raw path = some cs ∧
    Denotes (eng.posix raw) pcs isDir cs

/-- The texts GRegex is asked to compile: those patterns are translated to, and several of them
joined. -/
inductive Asked : List UInt8 → Prop where
  | one {pattern : List UInt8} {frag : List Char} {dirOnly : Bool}
      (h : globToRegex (latin1 pattern) = .ok (frag, dirOnly)) : Asked (bytes frag)
  | joined {texts : List (List UInt8)} (h : ∀ text ∈ texts, Asked text) :
      Asked (GlobSet.alternationBytes texts)

/-- What GRegex promises about the texts it is asked to compile. It may refuse any of them and give
up on any path; but it accepts no pattern's text that cannot be read, and where it does answer, it
tells whether what is read is found in the path. -/
structure Engine.Follows (eng : Engine) : Prop where
  reads {pattern : List UInt8} {frag : List Char} {dirOnly raw : Bool} {code : eng.Code} :
    globToRegex (latin1 pattern) = .ok (frag, dirOnly) →
      eng.compile raw (bytes frag) = .ok code →
        ∃ text r, form raw (bytes frag) = some text ∧ Pcre.compile (eng.posix raw) text = some r
  finds {pattern path : List UInt8} {text cs : List Char} {raw b : Bool} {code : eng.Code}
      {r : Regex Char} :
    Asked pattern → eng.compile raw pattern = .ok code → form raw pattern = some text →
      Pcre.compile (eng.posix raw) text = some r → form raw path = some cs →
        eng.exec raw code path = some b → (b = true ↔ Regex.Search r cs)

section Engine

variable {eng : Engine}

namespace GRegex

def Valid (raw : Bool) (g : GRegex eng) : Prop :=
  Asked g.pattern ∧ eng.compile raw g.pattern = .ok g.code

def Means (raw : Bool) (g : GRegex eng) (r : Regex Char) : Prop :=
  ∃ text, form raw g.pattern = some text ∧ Pcre.compile (eng.posix raw) text = some r

def Finds (raw : Bool) (g : GRegex eng) (cs : List Char) : Prop :=
  ∃ r, g.Means raw r ∧ Regex.Search r cs

def Decides (raw : Bool) (g : GRegex eng) (path : List UInt8) : Prop :=
  (eng.exec raw g.code path).isSome = true

variable {raw : Bool} {g : GRegex eng} {r : Regex Char} {path : List UInt8} {cs : List Char}

theorem Means.finds_iff (h : g.Means raw r) : g.Finds raw cs ↔ Regex.Search r cs := by
  obtain ⟨text, htext, hr⟩ := h
  constructor
  · rintro ⟨r', ⟨text', htext', hr'⟩, hs⟩
    obtain rfl := Option.some.inj (htext.symm.trans htext')
    obtain rfl := Option.some.inj (hr.symm.trans hr')
    exact hs
  · exact fun hs => ⟨r, ⟨text, htext, hr⟩, hs⟩

theorem finds_iff_of_exec (hfollows : eng.Follows) (hvalid : g.Valid raw) (hmeans : g.Means raw r)
    (hpath : form raw path = some cs) {b : Bool} (hexec : eng.exec raw g.code path = some b) :
    b = true ↔ g.Finds raw cs := by
  rw [hmeans.finds_iff]
  obtain ⟨text, htext, hr⟩ := hmeans
  exact hfollows.finds hvalid.1 hvalid.2 htext hr hpath hexec

theorem finds_of_isMatch (hfollows : eng.Follows) (hvalid : g.Valid raw) (hmeans : g.Means raw r)
    (hpath : form raw path = some cs) (h : g.isMatch raw path = true) : g.Finds raw cs := by
  rw [isMatch] at h
  cases hexec : eng.exec raw g.code path with
  | none => rw [hexec] at h; cases h
  | some b =>
    rw [hexec] at h
    exact (finds_iff_of_exec hfollows hvalid hmeans hpath hexec).mp h

theorem isMatch_iff (hfollows : eng.Follows) (hvalid : g.Valid raw) (hmeans : g.Means raw r)
    (hpath : form raw path = some cs) (h : g.Decides raw path) :
    g.isMatch raw path = true ↔ g.Finds raw cs := by
  obtain ⟨b, hexec⟩ := Option.isSome_iff_exists.mp h
  rw [isMatch, hexec]
  exact finds_iff_of_exec hfollows hvalid hmeans hpath hexec

end GRegex

theorem regexNew_eq_ok {raw : Bool} {pattern : List UInt8} {g : GRegex eng} :
    eng.regexNew raw pattern = .ok g ↔
      g.pattern = pattern ∧ eng.compile raw g.pattern = .ok g.code := by
  unfold Engine.regexNew
  constructor
  · intro h
    cases hcompile : eng.compile raw pattern with
    | error msg => rw [hcompile] at h; cases h
    | ok code =>
      rw [hcompile] at h
      obtain rfl := Except.ok.inj h
      exact ⟨rfl, hcompile⟩
  · rintro ⟨rfl, hcompile⟩
    rw [hcompile]
    rfl

namespace GlobPat

/-- What `glob_set_add()` stores for a pattern it compiles. -/
def Compiled (gp : GlobPat eng) : Prop :=
  ∃ frag reRaw, globToRegex (latin1 gp.pattern) = .ok (frag, gp.dirOnly) ∧
    GlobSet.patRegexes (bytes frag) = .ok (gp.re, reRaw) ∧ gp.reRaw = some reRaw

variable {gp : GlobPat eng}

theorem patRegexes_eq_ok {frag : List UInt8} {re : Option (GRegex eng)} {reRaw : GRegex eng}
    (h : GlobSet.patRegexes frag = .ok (re, reRaw)) :
    (reRaw.pattern = frag ∧ eng.compile true reRaw.pattern = .ok reRaw.code) ∧
      (Utf8.decode frag = none ∧ re = none ∨
        ∃ g, re = some g ∧ g.pattern = frag ∧ eng.compile false g.pattern = .ok g.code) := by
  have hraw : ∀ re', (do
      let reRaw ← eng.regexNew true frag
      Except.ok (re', reRaw)) = Except.ok (re, reRaw) →
        re' = re ∧ reRaw.pattern = frag ∧ eng.compile true reRaw.pattern = .ok reRaw.code := by
    intro re' h
    cases hnew : eng.regexNew true frag with
    | error msg => rw [hnew] at h; cases h
    | ok g =>
      rw [hnew] at h
      obtain ⟨rfl, rfl⟩ := Prod.mk.inj (Except.ok.inj h)
      exact ⟨rfl, regexNew_eq_ok.mp hnew⟩
  unfold GlobSet.patRegexes at h
  cases hdecode : Utf8.decode frag with
  | none =>
    rw [hdecode] at h
    obtain ⟨rfl, hvalid⟩ := hraw none h
    exact ⟨hvalid, Or.inl ⟨rfl, rfl⟩⟩
  | some cs =>
    rw [hdecode] at h
    cases hnew : eng.regexNew false frag with
    | error msg => rw [hnew] at h; cases h
    | ok g =>
      rw [hnew] at h
      obtain ⟨rfl, hvalid⟩ := hraw (some g) h
      exact ⟨hvalid, Or.inr ⟨g, rfl, regexNew_eq_ok.mp hnew⟩⟩

theorem Compiled.not_isLiteral (h : gp.Compiled) : gp.isLiteral = false := by
  obtain ⟨frag, reRaw, -, -, hraw⟩ := h
  rw [isLiteral, hraw, Option.isNone_some, Bool.and_false]

/-- The expressions of a pattern are made of what it is translated to. -/
theorem Compiled.regex (h : gp.Compiled) {raw : Bool} {g : GRegex eng}
    (hg : gp.regex raw = some g) :
    ∃ frag, globToRegex (latin1 gp.pattern) = .ok (frag, gp.dirOnly) ∧
      g.pattern = bytes frag ∧ eng.compile raw g.pattern = .ok g.code := by
  obtain ⟨frag, reRaw, hfrag, hregexes, hraw⟩ := h
  obtain ⟨hcode, hre⟩ := patRegexes_eq_ok hregexes
  refine ⟨frag, hfrag, ?_⟩
  cases raw with
  | true =>
    obtain rfl := Option.some.inj (hraw.symm.trans hg)
    exact hcode
  | false =>
    rcases hre with ⟨-, hnone⟩ | ⟨g', hsome, hcode'⟩
    · exact absurd (hnone.symm.trans hg) (by simp)
    · obtain rfl := Option.some.inj (hsome.symm.trans hg)
      exact hcode'

theorem Compiled.valid (h : gp.Compiled) {raw : Bool} {g : GRegex eng}
    (hg : gp.regex raw = some g) : g.Valid raw := by
  obtain ⟨frag, hfrag, hpattern, hcode⟩ := h.regex hg
  exact ⟨hpattern ▸ .one hfrag, hcode⟩

theorem Compiled.means (h : gp.Compiled) (hfollows : eng.Follows) {raw : Bool} {g : GRegex eng}
    (hg : gp.regex raw = some g) : ∃ r, g.Means raw r := by
  obtain ⟨frag, hfrag, hpattern, hcode⟩ := h.regex hg
  rw [hpattern] at hcode
  obtain ⟨text, r, htext, hr⟩ := hfollows.reads hfrag hcode
  exact ⟨r, text, hpattern ▸ htext, hr⟩

/-- A pattern is translated to bytes, so its text is written as it reads. -/
theorem latin1_bytes_of_globToRegex {pattern : List UInt8} {frag : List Char} {dirOnly : Bool}
    (h : globToRegex (latin1 pattern) = .ok (frag, dirOnly)) : latin1 (bytes frag) = frag := by
  refine latin1_bytes fun c hc => ?_
  rcases from_globToRegex h c hc with hmem | hlow
  · exact toNat_lt_of_mem_latin1 hmem
  · omega

/-- What a pattern that is read in a way is translated to can be read in the same way. -/
theorem exists_form_of_globToRegex {raw : Bool} {pattern : List UInt8} {pcs frag : List Char}
    {dirOnly : Bool} (h : globToRegex (latin1 pattern) = .ok (frag, dirOnly))
    (hform : form raw pattern = some pcs) : ∃ text, form raw (bytes frag) = some text := by
  have hlatin := latin1_bytes_of_globToRegex h
  rw [form_eq_some.mp hform] at h
  obtain ⟨-, ⟨ts, hts⟩, hall⟩ := (coding_written raw).globToRegex_eq_ok h
  obtain ⟨-, text, htext, -⟩ := hall ts hts
  exact ⟨text, form_eq_some.mpr (by rw [hlatin, htext])⟩

/-- An expression is found in what the pattern denotes that it is made of. -/
theorem Compiled.finds_iff_of_regex (h : gp.Compiled) (hfollows : eng.Follows)
    (hord : Ordinary gp.pattern) {raw isDir : Bool} {cs pcs : List Char} {g : GRegex eng}
    (hg : gp.regex raw = some g) (hpcs : form raw gp.pattern = some pcs) :
    (gp.dirOnly = true → isDir = true) ∧ g.Finds raw cs ↔
      Denotes (eng.posix raw) pcs isDir cs := by
  obtain ⟨r, hr⟩ := h.means hfollows hg
  obtain ⟨frag, hfrag, hpattern, -⟩ := h.regex hg
  rw [hr.finds_iff]
  obtain ⟨text, htext, hcompile⟩ := hr
  have htext' := form_eq_some.mp htext
  rw [hpattern, latin1_bytes_of_globToRegex hfrag] at htext'
  rw [form_eq_some.mp hpcs, htext'] at hfrag
  exact (coding_written raw).search_iff_denotes hfrag hcompile (hord.slashSafe raw pcs hpcs)
    isDir cs

/-- A pattern has an expression of either kind exactly where it reads in that way. -/
theorem Compiled.regex_isSome_iff (h : gp.Compiled) (hfollows : eng.Follows)
    (hord : Ordinary gp.pattern) (raw : Bool) :
    (∃ g, gp.regex raw = some g) ↔ ∃ pcs, form raw gp.pattern = some pcs := by
  constructor
  · rintro ⟨g, hg⟩
    obtain ⟨r, text, htext, -⟩ := h.means hfollows hg
    obtain ⟨frag, hfrag, hpattern, -⟩ := h.regex hg
    cases raw with
    | true => exact ⟨_, rfl⟩
    | false =>
      have hlatin := latin1_bytes_of_globToRegex hfrag
      have hcoded : Coded (written false) frag :=
        ⟨text, by rw [← hlatin, ← hpattern]; exact form_eq_some.mp htext⟩
      obtain ⟨pcs, hcs⟩ := framed_written.globToRegex hfrag hord.untorn hcoded
      exact ⟨pcs, form_eq_some.mpr hcs⟩
  · rintro ⟨pcs, hpcs⟩
    obtain ⟨frag, reRaw, hfrag, hregexes, hraw⟩ := h
    obtain ⟨-, hre⟩ := patRegexes_eq_ok hregexes
    cases raw with
    | true => exact ⟨reRaw, hraw⟩
    | false =>
      rcases hre with ⟨hdecode, -⟩ | ⟨g, hg, -⟩
      · obtain ⟨text, htext⟩ := exists_form_of_globToRegex hfrag hpcs
        cases hdecode.symm.trans htext
      · exact ⟨g, hg⟩

/-- The expression of either kind is found in what the pattern denotes that is read so. -/
theorem Compiled.finds_iff (h : gp.Compiled) (hfollows : eng.Follows) (hord : Ordinary gp.pattern)
    (raw isDir : Bool) (cs : List Char) :
    (gp.dirOnly = true → isDir = true) ∧ (∃ g, gp.regex raw = some g ∧ g.Finds raw cs) ↔
      ∃ pcs, form raw gp.pattern = some pcs ∧ Denotes (eng.posix raw) pcs isDir cs := by
  constructor
  · rintro ⟨hdir, g, hg, hfinds⟩
    obtain ⟨pcs, hpcs⟩ := (h.regex_isSome_iff hfollows hord raw).mp ⟨g, hg⟩
    exact ⟨pcs, hpcs, (h.finds_iff_of_regex hfollows hord hg hpcs).mp ⟨hdir, hfinds⟩⟩
  · rintro ⟨pcs, hpcs, hdenotes⟩
    obtain ⟨g, hg⟩ := (h.regex_isSome_iff hfollows hord raw).mpr ⟨pcs, hpcs⟩
    obtain ⟨hdir, hfinds⟩ := (h.finds_iff_of_regex hfollows hord hg hpcs).mpr hdenotes
    exact ⟨hdir, g, hg, hfinds⟩

end GlobPat

/-! ### All patterns joined -/

theorem latin1_alternation {raw : Bool} (text : GRegex eng → List Char)
    {gl : List (GRegex eng)}
    (h : ∀ g ∈ gl, form raw g.pattern = some (text g)) :
    form raw (GlobSet.alternationBytes (gl.map GRegex.pattern)) =
      some (alternation (gl.map text)) := by
  have henc := coding_written raw
  rw [form_eq_some]
  have hgroup : ∀ g ∈ gl, latin1 (bytes "(?:".toList ++ g.pattern ++ bytes ")".toList) =
      ("(?:".toList ++ text g ++ ")".toList).flatMap (written raw) := by
    intro g hg
    rw [latin1_append, latin1_append, latin1_bytes (by decide), latin1_bytes (by decide),
      form_eq_some.mp (h g hg), List.append_assoc, List.append_assoc, henc.append_ascii (by decide),
      List.flatMap_append, henc.ascii_eq (u := ")".toList) (by decide)]
  induction gl with
  | nil => rfl
  | cons g gl ih =>
    cases gl with
    | nil =>
      simpa [GlobSet.alternationBytes, alternation, List.intercalate] using
        hgroup g List.mem_cons_self
    | cons g' gl =>
      have hrest := ih (fun g hg => h g (List.mem_cons_of_mem _ hg))
        fun g hg => hgroup g (List.mem_cons_of_mem _ hg)
      have hbytes : GlobSet.alternationBytes ((g :: g' :: gl).map GRegex.pattern) =
          (bytes "(?:".toList ++ g.pattern ++ bytes ")".toList) ++
            (bytes "|".toList ++ GlobSet.alternationBytes ((g' :: gl).map GRegex.pattern)) := by
        simp [GlobSet.alternationBytes, List.intercalate]
      have hbar : ∀ u v : List Char, (u ++ '|' :: v).flatMap (written raw) =
          u.flatMap (written raw) ++ '|' :: v.flatMap (written raw) := fun u v => by
        rw [List.flatMap_append, henc.cons_ascii (by decide)]
      rw [hbytes, latin1_append _ (bytes "|".toList ++ _), hgroup g List.mem_cons_self,
        latin1_append, latin1_bytes (by decide), hrest, List.map_cons, List.map_cons,
        List.map_cons, Pcre.alternation_cons, hbar]
      rfl

/-- Where the expressions of some patterns can be read, so can they joined, and that is found where
one of them is. -/
theorem GRegex.joined_spec {raw : Bool} {gl : List (GRegex eng)} {joined : GRegex eng}
    (hne : gl ≠ []) (hpattern : joined.pattern = GlobSet.alternationBytes (gl.map GRegex.pattern))
    (hcode : eng.compile raw joined.pattern = .ok joined.code) (hvalid : ∀ g ∈ gl, g.Valid raw)
    (hmeans : ∀ g ∈ gl, ∃ r, g.Means raw r) :
    joined.Valid raw ∧ (∃ r, joined.Means raw r) ∧
      ∀ cs, joined.Finds raw cs ↔ ∃ g ∈ gl, g.Finds raw cs := by
  have hasked : Asked joined.pattern := by
    rw [hpattern]
    refine .joined fun text htext => ?_
    obtain ⟨g, hg, rfl⟩ := List.mem_map.mp htext
    exact (hvalid g hg).1
  choose! r text hform hread using hmeans
  have hsome : ∀ t ∈ gl.map text, (Pcre.compile (eng.posix raw) t).isSome := by
    intro t ht
    obtain ⟨g, hg, rfl⟩ := List.mem_map.mp ht
    rw [hread g hg]
    rfl
  obtain ⟨s, hs, hone⟩ := Pcre.compile_alternation (by simpa using hne) hsome
  have hjoined : joined.Means raw s := ⟨_, hpattern ▸ latin1_alternation text hform, hs⟩
  refine ⟨⟨hasked, hcode⟩, ⟨s, hjoined⟩, fun cs => ?_⟩
  rw [hjoined.finds_iff]
  constructor
  · rintro ⟨p, q, hcs, hpq⟩
    obtain ⟨t, ht, s', hs', hst⟩ := (hone p q).mp hpq
    obtain ⟨g, hg, rfl⟩ := List.mem_map.mp ht
    exact ⟨g, hg, s', ⟨_, hform g hg, hs'⟩, p, q, hcs, hst⟩
  · rintro ⟨g, hg, s', ⟨t, ht, hs'⟩, p, q, hcs, hpq⟩
    obtain rfl := Option.some.inj ((hform g hg).symm.trans ht)
    exact ⟨p, q, hcs, (hone p q).mpr ⟨_, List.mem_map_of_mem hg, s', hs', hpq⟩⟩

namespace GlobSet

variable {gs gs' : GlobSet eng} {raw : Bool}

/-- The patterns of a set joined are found where one of them at least is. -/
theorem compileOne_spec {out : Option (GRegex eng)} (hcompile : gs.compileOne raw = .ok out)
    (hvalid : ∀ gp ∈ gs.pats, ∀ g, gp.regex raw = some g → g.Valid raw)
    (hmeans : ∀ gp ∈ gs.pats, ∀ g, gp.regex raw = some g → ∃ r, g.Means raw r) :
    (∀ g, out = some g → g.Valid raw ∧ ∃ r, g.Means raw r) ∧
      ∀ cs, (∃ g, out = some g ∧ g.Finds raw cs) ↔
        ∃ gp ∈ gs.pats, ∃ g, gp.regex raw = some g ∧ g.Finds raw cs := by
  have hmem : ∀ g, g ∈ gs.pats.filterMap (fun gp => gp.regex raw) ↔
      ∃ gp ∈ gs.pats, gp.regex raw = some g := fun g => List.mem_filterMap
  have hvalid' : ∀ g ∈ gs.pats.filterMap (fun gp => gp.regex raw), g.Valid raw := by
    intro g hg
    obtain ⟨gp, hgp, hreg⟩ := (hmem g).mp hg
    exact hvalid gp hgp g hreg
  have hmeans' : ∀ g ∈ gs.pats.filterMap (fun gp => gp.regex raw), ∃ r, g.Means raw r := by
    intro g hg
    obtain ⟨gp, hgp, hreg⟩ := (hmem g).mp hg
    exact hmeans gp hgp g hreg
  have hfound : ∀ cs, (∃ gp ∈ gs.pats, ∃ g, gp.regex raw = some g ∧ g.Finds raw cs) ↔
      ∃ g ∈ gs.pats.filterMap (fun gp => gp.regex raw), g.Finds raw cs := by
    intro cs
    simp only [hmem]
    exact ⟨fun ⟨gp, hgp, g, hreg, hs⟩ => ⟨g, ⟨gp, hgp, hreg⟩, hs⟩,
      fun ⟨g, ⟨gp, hgp, hreg⟩, hs⟩ => ⟨gp, hgp, g, hreg, hs⟩⟩
  simp only [hfound]
  unfold compileOne at hcompile
  generalize gs.pats.filterMap (fun gp => gp.regex raw) = gl at hvalid' hmeans' hcompile
  cases gl with
  | nil =>
    obtain rfl := Except.ok.inj hcompile
    simp
  | cons g gl =>
    rw [if_neg (by simp)] at hcompile
    cases hnew : eng.regexNew raw (alternationBytes ((g :: gl).map GRegex.pattern)) with
    | error msg => simp only [hnew] at hcompile; cases hcompile
    | ok joined =>
      simp only [hnew] at hcompile
      obtain rfl := Except.ok.inj hcompile
      obtain ⟨hpattern, hcode⟩ := regexNew_eq_ok.mp hnew
      obtain ⟨hjoined, hread, hfinds⟩ :=
        GRegex.joined_spec (List.cons_ne_nil g gl) hpattern hcode hvalid' hmeans'
      refine ⟨fun g' hg' => ?_, fun cs => ?_⟩
      · obtain rfl := Option.some.inj hg'
        exact ⟨hjoined, hread⟩
      · simp only [Option.some.injEq, exists_eq_left', hfinds]

/-- Compiling a set changes nothing but the joined expressions. -/
theorem compile_eq_ok (h : gs.compile = .ok gs') :
    gs'.pats = gs.pats ∧ gs'.literals = gs.literals ∧
      ∀ raw, gs.compileOne raw = .ok (gs'.regex raw) := by
  unfold compile at h
  cases hre : gs.compileOne false with
  | error msg => rw [hre] at h; cases h
  | ok re =>
    cases hraw : gs.compileOne true with
    | error msg => rw [hre, hraw] at h; cases h
    | ok reRaw =>
      rw [hre, hraw] at h
      obtain rfl := Except.ok.inj h
      refine ⟨rfl, rfl, fun raw => ?_⟩
      cases raw with
      | true => exact hraw
      | false => exact hre

end GlobSet

end Engine

end Glob

end Oans
