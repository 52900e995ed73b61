import Oans.GlobRegex

/-!
# What translated patterns match

The expression a pattern is translated to is found in exactly the paths the pattern denotes. In a
negated class the separator comes first, so a hyphen at its start would make a range of it; no such
class is safe.
-/

namespace Oans

open Pcre (Atom Tok lex)
open Regex (Reads Search Matches)

namespace Glob

/-- Whether a class means the same behind a separator. -/
def Token.Safe : Token → Prop
  | cls true (.dash :: _ :: _) => False
  | _ => True

section Language

variable {posix : List Char → Option (Char → Bool)}

theorem classOf_eq_some {as : List Atom} {g : Char → Bool} :
    Pcre.classOf posix as = some g ↔ ∃ items, Pcre.readItems posix .no as = some items ∧
      (fun c => items.any (·.has c)) = g := by
  simp [Pcre.classOf, Option.map_eq_some_iff]

/-- A separator before a class adds just itself to it. -/
theorem classOf_slash {as : List Atom} {g : Char → Bool} (hsafe : (Token.cls true as).Safe)
    (h : Pcre.classOf posix (.chr '/' :: as) = some g) :
    ∃ f, Pcre.classOf posix as = some f ∧ ∀ c, g c = (c == '/' || f c) := by
  obtain ⟨items, hitems, rfl⟩ := classOf_eq_some.mp h
  have hone : Pcre.readItems posix (.ok '/') as = some items := by
    simpa [Pcre.readItems, Pcre.RangeState.next, Pcre.RangeState.pending] using hitems
  suffices hrest : ∃ rest, Pcre.readItems posix .no as = some rest ∧ items = .one '/' :: rest by
    obtain ⟨rest, hrest, rfl⟩ := hrest
    exact ⟨_, classOf_eq_some.mpr ⟨rest, hrest, rfl⟩, fun c => by simp [Pcre.Item.has]⟩
  cases as with
  | nil => exact ⟨[], rfl, (Option.some.inj hone).symm⟩
  | cons a as =>
    cases a with
    | chr c =>
      simp only [Pcre.readItems, Pcre.RangeState.next, Pcre.RangeState.pending,
        Option.bind_eq_bind, Option.bind_some, Option.map_eq_map, Option.map_eq_some_iff] at hone ⊢
      obtain ⟨rest, hrest, rfl⟩ := hone
      exact ⟨rest, ⟨rest, hrest, rfl⟩, rfl⟩
    | dash =>
      cases as with
      | nil => exact ⟨[.one '-'], rfl, (Option.some.inj hone).symm⟩
      | cons b as => exact absurd hsafe id
    | posix name =>
      simp only [Pcre.readItems, Pcre.RangeState.pending] at hone ⊢
      split_ifs at hone ⊢ with hdash
      simp only [Option.bind_eq_bind, Option.bind_eq_some_iff, Option.map_eq_map,
        Option.map_eq_some_iff] at hone ⊢
      obtain ⟨f, hf, rest, hrest, rfl⟩ := hone
      exact ⟨.posix f :: rest, ⟨f, hf, rest, hrest, rfl⟩, rfl⟩

theorem classOf_slash_only :
    Pcre.classOf posix [.chr '/'] = some fun c => c == '/' := by
  simp [Pcre.classOf, Pcre.readItems, Pcre.RangeState.next, Pcre.RangeState.pending, Pcre.Item.has]

theorem pushes_notSlash :
    Pcre.Pushes posix [.cls true [.chr '/']] (.one fun c => (c == '/') != true) :=
  Pcre.pushes_cls classOf_slash_only

theorem reads_run : Reads (.star (.one fun _ => true)) (⊤ : Language Char) :=
  (Regex.reads_one _).star.congr fun w => by
    rw [Regex.mem_kstar_one]
    exact ⟨fun _ => trivial, fun _ _ _ => rfl⟩

theorem mem_slash {w : List Char} : w ∈ Regex.chars (fun c => c == '/') ↔ w = ['/'] := by
  constructor
  · rintro ⟨c, hc, rfl⟩
    exact congrArg (fun c => [c]) (beq_iff_eq.mp hc)
  · intro h
    exact ⟨'/', rfl, h⟩

theorem reads_directories :
    Reads (.alt (.cat (.star (.one fun _ => true)) (.one fun c => c == '/')) .empty)
      directories :=
  ((reads_run.cat (Regex.reads_one fun c => c == '/')).alt Regex.reads_empty).congr fun w => by
    rw [Language.mem_add, Language.mem_mul, mem_directories, or_comm]
    refine or_congr Iff.rfl ⟨?_, ?_⟩
    · rintro ⟨x, -, y, hy, rfl⟩
      exact ⟨x, by rw [mem_slash.mp hy]⟩
    · rintro ⟨x, rfl⟩
      exact ⟨x, trivial, ['/'], mem_slash.mpr rfl, rfl⟩

theorem adds_directories :
    Pcre.Adds posix [.group, .dot, .star, .lit '/', .close, .opt]
      (.alt (.cat (.star (.one fun _ => true)) (.one fun c => c == '/')) .empty) :=
  (Pcre.pushes_dot.star.append (Pcre.pushes_lit '/').adds).group.opt

theorem Token.adds {t : Token} (hsafe : t.Safe)
    (hread : ∀ negated as, .cls negated as ∈ t.toks → (Pcre.classOf posix as).isSome) :
    ∃ r, Pcre.Adds posix t.toks r ∧ Reads r (t.language posix) := by
  cases t with
  | lit c =>
    refine ⟨_, (Pcre.pushes_lit c).adds, (Regex.reads_one _).congr fun w => ?_⟩
    constructor
    · rintro ⟨d, hd, rfl⟩
      exact congrArg (fun c => [c]) (beq_iff_eq.mp hd)
    · intro h
      exact ⟨c, beq_self_eq_true c, h⟩
  | any =>
    refine ⟨_, pushes_notSlash.adds, (Regex.reads_one _).congr fun w => ?_⟩
    exact exists_congr fun c => and_congr_left' (by simp)
  | star =>
    refine ⟨_, pushes_notSlash.star, (Regex.reads_one _).star.congr fun w => ?_⟩
    rw [Regex.mem_kstar_one]
    constructor
    · intro h hmem
      simpa using h '/' hmem
    · intro h c hc
      simpa using fun heq : c = '/' => h (heq ▸ hc)
  | dstar => exact ⟨_, Pcre.pushes_dot.star, reads_run⟩
  | dirs => exact ⟨_, adds_directories, reads_directories⟩
  | cls negated as =>
    cases negated with
    | true =>
      obtain ⟨g, hg⟩ := Option.isSome_iff_exists.mp (hread _ _ List.mem_cons_self)
      obtain ⟨f, hf, hgf⟩ := classOf_slash hsafe hg
      refine ⟨_, (Pcre.pushes_cls hg).adds, (Regex.reads_one _).congr fun w => ?_⟩
      constructor
      · rintro ⟨c, hc, rfl⟩
        have hnot : ¬ (c = '/' ∨ f c = true) := by simpa [hgf] using hc
        exact ⟨c, f, rfl, fun heq => hnot (Or.inl heq), hf, fun heq => hnot (Or.inr heq)⟩
      · rintro ⟨c, f', rfl, hc, hf', hne⟩
        obtain rfl := Option.some.inj (hf.symm.trans hf')
        exact ⟨c, by simp [hgf, hc, hne], rfl⟩
    | false =>
      obtain ⟨f, hf⟩ := Option.isSome_iff_exists.mp (hread false as (by simp [toks]))
      refine ⟨_, (Pcre.pushes_lit '/').adds.ahead.append (Pcre.pushes_cls hf).adds,
        (Regex.reads_one_notAhead _ _).congr fun w => ?_⟩
      constructor
      · rintro ⟨c, hc, rfl⟩
        obtain ⟨hc, hslash⟩ := Bool.and_eq_true_iff.mp hc
        exact ⟨c, f, rfl, by simpa using hslash, hf, by simpa using hc⟩
      · rintro ⟨c, f', rfl, hc, hf', hne⟩
        obtain rfl := Option.some.inj (hf.symm.trans hf')
        have hfc : f c = true := by simpa using hne
        exact ⟨c, by simp [hfc, hc], rfl⟩

theorem adds_tokens {ts : List Token} (hsafe : ∀ t ∈ ts, t.Safe)
    (hread : ∀ negated as, .cls negated as ∈ ts.flatMap Token.toks →
      (Pcre.classOf posix as).isSome) :
    ∃ r, Pcre.Adds posix (ts.flatMap Token.toks) r ∧ Reads r (language posix ts) := by
  induction ts with
  | nil => exact ⟨_, Pcre.adds_nil, Regex.reads_empty⟩
  | cons t ts ih =>
    rw [List.flatMap_cons] at hread ⊢
    obtain ⟨r, hr, hrl⟩ := Token.adds (hsafe t List.mem_cons_self) fun negated as hmem =>
      hread negated as (List.mem_append_left _ hmem)
    obtain ⟨s, hs, hsl⟩ := ih (fun t' ht' => hsafe t' (List.mem_cons_of_mem t ht'))
      fun negated as hmem => hread negated as (List.mem_append_right _ hmem)
    exact ⟨_, hr.append hs, hrl.cat hsl⟩

/-- The tokens before a pattern: the whole path from its start, or anything behind a separator. -/
inductive Anchor : List Tok → Language Char → Prop where
  | absolute : Anchor [.bos] 1
  | anyDepth : Anchor [.bos, .group, .dot, .star, .lit '/', .close, .opt] directories
  | basename : Anchor [.group, .bos, .bar, .lit '/', .close] directories

/-- A pattern read behind its anchor is found in the paths it denotes. -/
theorem search_anchor {start : List Tok} {L : Language Char} (hanchor : Anchor start L)
    {ts : List Token} (hsafe : ∀ t ∈ ts, t.Safe) {text : List Char}
    (hlex : lex .text text = some (start ++ ts.flatMap Token.toks ++ [.eos]))
    {r : Regex Char} (hcompile : Pcre.compile posix text = some r) (w : List Char) :
    Search r w ↔ w ∈ L * language posix ts := by
  have hread : ∀ negated as, .cls negated as ∈ ts.flatMap Token.toks →
      (Pcre.classOf posix as).isSome := by
    intro negated as hmem
    obtain ⟨toks, st, hlex', hrun, -⟩ := Pcre.compile_eq_some.mp hcompile
    obtain rfl := Option.some.inj (hlex.symm.trans hlex')
    cases hclass : Pcre.classOf posix as with
    | none =>
      have hmem' := List.mem_append_left [.eos] (List.mem_append_right start hmem)
      rw [Pcre.foldlM_of_classOf hmem' hclass] at hrun
      cases hrun
    | some f => rfl
  obtain ⟨s, hs, hsl⟩ := adds_tokens hsafe hread
  have hsearch : ∀ {s' : Regex Char}, Pcre.Adds posix start s' →
      (Search r w ↔ Search (.cat s' (.cat s .eos)) w) := by
    intro s' hadds
    obtain ⟨r', hr', hmatch⟩ :=
      Pcre.compile_of_adds hlex ((hadds.append hs).append Pcre.adds_eos)
    obtain rfl := Option.some.inj (hcompile.symm.trans hr')
    simp only [Search, hmatch, Pcre.matches_cat, Relation.comp_assoc]
  cases hanchor with
  | absolute => rw [hsearch Pcre.adds_bos, Regex.search_anchored hsl, one_mul]
  | anyDepth =>
    rw [hsearch (Pcre.adds_bos.append adds_directories)]
    have hassoc : ∀ a b c d : Regex Char,
        Search (.cat (.cat a b) (.cat c d)) w ↔ Search (.cat a (.cat (.cat b c) d)) w := by
      intro a b c d
      simp only [Search, Pcre.matches_cat, Relation.comp_assoc]
    rw [hassoc, Regex.search_anchored (reads_directories.cat hsl)]
  | basename =>
    rw [hsearch (Pcre.adds_bos.group_bar (Pcre.pushes_lit '/').adds).adds,
      Regex.search_alt_bos (Regex.reads_one fun c => c == '/') hsl, Language.mem_mul]
    constructor
    · rintro ⟨u, v, rfl, hu, hv⟩
      refine ⟨u, hu.imp_right ?_, v, hv, rfl⟩
      rintro ⟨x, y, hy, rfl⟩
      exact ⟨x, by rw [mem_slash.mp hy]⟩
    · rintro ⟨u, hu, v, hv, rfl⟩
      refine ⟨u, v, rfl, hu.imp_right ?_, hv⟩
      rintro ⟨x, hx⟩
      exact ⟨x, ['/'], mem_slash.mpr rfl, hx⟩

end Language

/-- No negated class of the pattern starts with a hyphen before another of its members. -/
def SlashSafe (pattern : List Char) : Prop :=
  ∀ ts, Spells (pattern.rdropWhile (· == '/')) ts → ∀ t ∈ ts, t.Safe

/-- Reading a pattern token by token: each class of it stands in its text. -/
theorem Spells.infix_of_cls {s : List Char} {ts : List Token} (h : Spells s ts) {negated : Bool}
    {as : List Atom} (hmem : Token.cls negated as ∈ ts) :
    ∃ u v rest, s = u ++ '[' :: v ∧ Class v negated as rest := by
  have hprefix : ∀ {s' : List Char} {ts' : List Token} (u : List Char),
      (Token.cls negated as ∈ ts' → ∃ u v rest, s' = u ++ '[' :: v ∧ Class v negated as rest) →
        Token.cls negated as ∈ ts' → ∃ u' v rest, u ++ s' = u' ++ '[' :: v ∧ Class v negated as rest := by
    intro s' ts' u ih hmem
    obtain ⟨u', v, rest, rfl, hclass⟩ := ih hmem
    exact ⟨u ++ u', v, rest, (List.append_assoc _ _ _).symm, hclass⟩
  induction h with
  | nil => cases hmem
  | @lit c s ts _ _ ih => exact hprefix [c] ih (by simpa using hmem)
  | @escape c s ts _ ih => exact hprefix ['\\', c] ih (by simpa using hmem)
  | backslash => simp at hmem
  | any _ ih => exact hprefix ['?'] ih (by simpa using hmem)
  | star _ _ ih => exact hprefix ['*'] ih (by simpa using hmem)
  | @dirs k s ts _ ih =>
    have := hprefix (List.replicate (k + 2) '*' ++ ['/']) ih (by simpa using hmem)
    simpa using this
  | @dstar k s ts _ _ ih => exact hprefix (List.replicate (k + 2) '*') ih (by simpa using hmem)
  | @cls s rest _ _ ts hclass _ ih =>
    rcases List.mem_cons.mp hmem with heq | hmem
    · obtain ⟨rfl, rfl⟩ := Token.cls.inj heq
      exact ⟨[], s, rest, rfl, hclass⟩
    · obtain ⟨u, hu⟩ := hclass.suffix
      have := hprefix ('[' :: u) ih hmem
      rwa [List.cons_append, hu] at this

theorem slashSafe_of_not_infix {pattern : List Char}
    (h : ∀ c, c = '!' ∨ c = '^' → ¬ ['[', c, '-'] <:+: pattern) : SlashSafe pattern := by
  intro ts hts t ht
  by_contra hsafe
  obtain ⟨as, rfl⟩ : ∃ as, t = .cls true (.dash :: as) := by
    unfold Token.Safe at hsafe
    split at hsafe
    · exact ⟨_, rfl⟩
    · exact absurd trivial hsafe
  obtain ⟨u, v, rest, hs, hclass⟩ := hts.infix_of_cls ht
  cases hclass with
  | negated hmark hbody =>
    cases hbody with
    | plain _ htext =>
      cases htext with
      | @dash v _ _ _ =>
        obtain ⟨dropped, hpattern⟩ := List.rdropWhile_prefix (· == '/') pattern
        refine h _ hmark ⟨u, v ++ dropped, ?_⟩
        rw [← hpattern, hs]
        simp

section Coding

variable {enc : Char → List Char} (henc : Coding enc)

include henc

theorem Coding.mem_slash {s : List Char} : '/' ∈ s.flatMap enc ↔ '/' ∈ s := by
  rw [List.mem_flatMap]
  constructor
  · rintro ⟨c, hc, hmem⟩
    by_cases hlow : c.toNat < 0x80
    · rw [henc.ascii c hlow, List.mem_singleton] at hmem
      rwa [hmem]
    · have := (henc.high c (by omega)).2 _ hmem
      exact absurd this (by decide)
  · intro h
    exact ⟨'/', h, by rw [henc.ascii '/' (by decide)]; exact List.mem_singleton_self _⟩

theorem Coding.exists_last {c : Char} (hc : c ≠ '/') : ∃ u d, enc c = u ++ [d] ∧ d ≠ '/' := by
  by_cases hlow : c.toNat < 0x80
  · exact ⟨[], c, henc.ascii c hlow, hc⟩
  · obtain ⟨hne, hhigh⟩ := henc.high c (by omega)
    refine ⟨(enc c).dropLast, (enc c).getLast hne, (List.dropLast_append_getLast hne).symm, ?_⟩
    exact ne_of_high (hhigh _ (List.getLast_mem hne)) (by decide)

theorem Coding.getLast?_slash {s : List Char} :
    (s.flatMap enc).getLast? = some '/' ↔ s.getLast? = some '/' := by
  induction s using List.reverseRecOn with
  | nil => simp
  | append_singleton s c _ =>
    rw [List.flatMap_append, List.flatMap_singleton, List.getLast?_concat]
    by_cases hc : c = '/'
    · rw [hc, henc.ascii '/' (by decide), List.getLast?_concat]
    · obtain ⟨u, d, hud, hd⟩ := henc.exists_last hc
      rw [hud, ← List.append_assoc, List.getLast?_concat]
      simp [hc, hd]

theorem Coding.rdropWhile_slash (s : List Char) :
    (s.flatMap enc).rdropWhile (· == '/') = (s.rdropWhile (· == '/')).flatMap enc := by
  induction s using List.reverseRecOn with
  | nil => rfl
  | append_singleton s c ih =>
    rw [List.flatMap_append, List.flatMap_singleton]
    by_cases hc : c = '/'
    · rw [hc, henc.ascii '/' (by decide), List.rdropWhile_concat_pos _ _ _ (by simp),
        List.rdropWhile_concat_pos _ _ _ (by simp), ih]
    · obtain ⟨u, d, hud, hd⟩ := henc.exists_last hc
      rw [List.rdropWhile_concat_neg _ _ c (by simpa using hc), hud, ← List.append_assoc,
        List.rdropWhile_concat_neg _ _ d (by simpa using hd), List.append_assoc, ← hud]
      simp

theorem Coding.anchorText (pat body : List Char) :
    Glob.anchorText (pat.flatMap enc) (body.flatMap enc) = Glob.anchorText pat body := by
  unfold Glob.anchorText
  simp only [henc.mem_slash, henc.head?_eq (show '/'.toNat < 0x80 by decide)]

omit henc in
theorem anchorText_spec (pat body : List Char) :
    Below 0x80 (Glob.anchorText pat body) ∧
      ∃ start, lex .text (Glob.anchorText pat body) = some start ∧
        Anchor start (if pat.head? = some '/' then 1 else directories) := by
  unfold Glob.anchorText
  split_ifs
  · exact ⟨by decide, _, rfl, .absolute⟩
  · exact ⟨by decide, _, rfl, .anyDepth⟩
  · exact ⟨by decide, _, rfl, .basename⟩

/-- What `glob_to_regex()` makes of a pattern written in bytes. -/
theorem Coding.globToRegex_eq_ok {pat frag : List Char} {dirOnly : Bool}
    (h : globToRegex (pat.flatMap enc) = .ok (frag, dirOnly)) :
    dirOnly = (pat.getLast? == some '/') ∧
      (∃ ts, Spells (pat.rdropWhile (· == '/')) ts) ∧
      ∀ ts, Spells (pat.rdropWhile (· == '/')) ts → ∃ start text, frag = text.flatMap enc ∧
        Anchor start (if pat.head? = some '/' then 1 else directories) ∧
        Pcre.Written text (start ++ ts.flatMap Token.toks ++ [.eos]) := by
  simp only [globToRegex, henc.rdropWhile_slash, henc.anchorText] at h
  split_ifs at h with hempty
  cases hloop : globLoop 0 ((pat.rdropWhile (· == '/')).flatMap enc) with
  | none => rw [hloop] at h; cases h
  | some coded =>
    rw [hloop] at h
    obtain ⟨rfl, rfl⟩ := Prod.mk.inj (Except.ok.inj h)
    refine ⟨?_, henc.exists_spells (by rw [hloop]; rfl), fun ts hts => ?_⟩
    · rw [Bool.eq_iff_iff, beq_iff_eq, beq_iff_eq, henc.getLast?_slash]
    · obtain ⟨text, htext, hwritten⟩ := henc.globLoop_spells hts
      obtain rfl := Option.some.inj (hloop.symm.trans htext)
      obtain ⟨hascii, start, hlex, hanchor⟩ :=
        anchorText_spec pat (pat.rdropWhile (· == '/'))
      refine ⟨start, Glob.anchorText pat (pat.rdropWhile (· == '/')) ++ text ++ "$".toList, ?_,
        hanchor, ((Pcre.written_of_lex hlex).append hwritten).append (Pcre.written_of_lex rfl)⟩
      rw [List.append_assoc _ text, henc.append_ascii hascii, List.flatMap_append,
        henc.ascii_eq (u := "$".toList) (by decide), List.append_assoc]

/-- The expression a pattern is translated to is found in the paths it denotes, those of
directories only where it ends with a separator. -/
theorem Coding.search_iff_denotes {posix : List Char → Option (Char → Bool)}
    {pat text : List Char} {dirOnly : Bool} {r : Regex Char}
    (h : globToRegex (pat.flatMap enc) = .ok (text.flatMap enc, dirOnly))
    (hcompile : Pcre.compile posix text = some r) (hsafe : SlashSafe pat) (isDir : Bool)
    (w : List Char) :
    (dirOnly = true → isDir = true) ∧ Search r w ↔ Denotes posix pat isDir w := by
  obtain ⟨hdir, ⟨ts, hts⟩, hall⟩ := henc.globToRegex_eq_ok h
  have hsearch : ∀ ts, Spells (pat.rdropWhile (· == '/')) ts → (Search r w ↔
      w ∈ if pat.head? = some '/' then language posix ts else directories * language posix ts) := by
    intro ts hts
    obtain ⟨start, text', htext, hanchor, hwritten⟩ := hall ts hts
    obtain rfl := henc.inj _ _ htext
    obtain ⟨toks, -, hlex, -⟩ := Pcre.compile_eq_some.mp hcompile
    obtain rfl := hwritten.eq hlex
    rw [search_anchor hanchor (hsafe ts hts) hlex hcompile]
    split_ifs
    · rw [one_mul]
    · rfl
  rw [Denotes, hdir, beq_iff_eq]
  refine and_congr Iff.rfl ⟨fun hw => ⟨ts, hts, (hsearch ts hts).mp hw⟩, ?_⟩
  rintro ⟨ts', hts', hw⟩
  exact (hsearch ts' hts').mpr hw

end Coding

/-! ### Patterns whose translation is text -/

theorem coding_bytes : Coding fun c => [c] where
  ascii _ _ := rfl
  high c hc := ⟨List.cons_ne_nil c [], fun d hd => by rwa [List.mem_singleton.mp hd]⟩
  inj s t h := by
    have hraw : ∀ s : List Char, s.flatMap (fun c => [c]) = s := List.flatMap_singleton'
    rwa [hraw, hraw] at h

theorem globLoop_isSome_iff {s : List Char} :
    (globLoop 0 s).isSome = true ↔ ∃ ts, Spells s ts := by
  have hraw : s.flatMap (fun c => [c]) = s := List.flatMap_singleton' s
  constructor
  · intro h
    exact coding_bytes.exists_spells (hraw.symm ▸ h)
  · rintro ⟨ts, hts⟩
    obtain ⟨text, htext, -⟩ := coding_bytes.globLoop_spells hts
    rw [hraw] at htext
    rw [htext]
    rfl

/-- A pattern is refused if and only if it is nothing but separators, or spells nothing without
those at its end. -/
theorem globToRegex_eq_error {pat err : List Char} :
    globToRegex pat = .error err ↔
      pat.rdropWhile (· == '/') = [] ∧
        err = "empty exclude pattern \"".toList ++ pat ++ "\"".toList ∨
      pat.rdropWhile (· == '/') ≠ [] ∧ (¬ ∃ ts, Spells (pat.rdropWhile (· == '/')) ts) ∧
        err = "unterminated '[' in exclude pattern \"".toList ++ pat ++ "\"".toList := by
  rw [← globLoop_isSome_iff]
  unfold globToRegex
  dsimp only
  split_ifs with hempty
  · constructor
    · exact fun h => Or.inl ⟨hempty, (Except.error.inj h).symm⟩
    · rintro (⟨-, rfl⟩ | ⟨hne, -⟩)
      · rfl
      · exact absurd hempty hne
  · cases globLoop 0 (pat.rdropWhile (· == '/')) with
    | none =>
      constructor
      · exact fun h => Or.inr ⟨hempty, Bool.false_ne_true, (Except.error.inj h).symm⟩
      · rintro (⟨hnil, -⟩ | ⟨-, -, rfl⟩)
        · exact absurd hnil hempty
        · rfl
    | some text =>
      constructor
      · exact fun h => by cases h
      · rintro (⟨hnil, -⟩ | ⟨-, hnone, -⟩)
        · exact absurd hnil hempty
        · exact absurd rfl hnone

/-- A way to write characters in which the bytes that go on with one start none. -/
structure Framed (enc : Char → List Char) (tail : Char → Prop) : Prop extends Coding enc where
  lead : ∀ c, ∃ d ds, enc c = d :: ds ∧ ¬ tail d ∧ ∀ e ∈ ds, tail e

def Coded (enc : Char → List Char) (s : List Char) : Prop := ∃ cs : List Char, s = cs.flatMap enc

/-- No backslash stands inside of a character. -/
def Untorn (tail : Char → Prop) (s : List Char) : Prop :=
  ∀ u d v, s = u ++ '\\' :: d :: v → ¬ tail d

theorem Untorn.of_append {tail : Char → Prop} {u s : List Char} (h : Untorn tail (u ++ s)) :
    Untorn tail s := fun u' d v hs =>
  h (u ++ u') d v (by rw [hs, List.append_assoc])

theorem Untorn.of_append_left {tail : Char → Prop} {u s : List Char} (h : Untorn tail (u ++ s)) :
    Untorn tail u := fun u' d v hu =>
  h u' d (v ++ s) (by rw [hu, List.append_assoc]; rfl)

theorem Coded.append {enc : Char → List Char} {s t : List Char} (h : Coded enc s)
    (h' : Coded enc t) : Coded enc (s ++ t) := by
  obtain ⟨cs, rfl⟩ := h
  obtain ⟨ds, rfl⟩ := h'
  exact ⟨cs ++ ds, List.flatMap_append.symm⟩

theorem Coding.coded_ascii {enc : Char → List Char} (henc : Coding enc) {s : List Char}
    (h : Below 0x80 s) : Coded enc s := ⟨s, (henc.ascii_eq h).symm⟩

section Framed

variable {enc : Char → List Char} {tail : Char → Prop} (henc : Framed enc tail)

include henc

theorem Framed.not_tail {c : Char} (hc : c.toNat < 0x80) : ¬ tail c := by
  obtain ⟨d, ds, hd, hlead, -⟩ := henc.lead c
  rw [henc.ascii c hc] at hd
  obtain ⟨rfl, -⟩ := List.cons.inj hd
  exact hlead

/-- Characters part where a byte goes on with none. -/
theorem Framed.split {u v : List Char} {d : Char} (h : Coded enc (u ++ d :: v)) (hd : ¬ tail d) :
    Coded enc u ∧ Coded enc (d :: v) := by
  obtain ⟨cs, hcs⟩ := h
  induction cs generalizing u with
  | nil => simp at hcs
  | cons c cs ih =>
    rw [List.flatMap_cons] at hcs
    rcases List.append_eq_append_iff.mp hcs with ⟨w, hw, hrest⟩ | ⟨w, rfl, hrest⟩
    · -- the byte lies in this character, so it starts it
      obtain ⟨e, ds, he, -, htail⟩ := henc.lead c
      cases u with
      | nil =>
        refine ⟨⟨[], rfl⟩, c :: cs, ?_⟩
        rw [List.flatMap_cons]
        exact hcs
      | cons e' u =>
        cases w with
        | nil =>
          rw [List.append_nil] at hw
          rw [List.nil_append] at hrest
          exact ⟨⟨[c], by rw [← hw, List.flatMap_singleton]⟩, cs, hrest⟩
        | cons d' w =>
          obtain ⟨rfl, -⟩ := List.cons.inj hrest
          rw [he, List.cons_append] at hw
          obtain ⟨-, hds⟩ := List.cons.inj hw
          exact absurd (htail d (hds ▸ List.mem_append_right u List.mem_cons_self)) hd
    · obtain ⟨⟨ds, hds⟩, hv⟩ := ih hrest.symm
      exact ⟨⟨c :: ds, by rw [List.flatMap_cons, hds]⟩, hv⟩

/-- Characters part at one of ASCII. -/
theorem Framed.split_ascii {u v m : List Char} (h : Coded enc (u ++ (m ++ v)))
    (hne : m ≠ []) (hm : Below 0x80 m) : Coded enc u ∧ Coded enc v := by
  obtain ⟨c, rest, rfl⟩ := List.exists_cons_of_ne_nil hne
  obtain ⟨hu, cs, hcs⟩ := henc.split h (henc.not_tail (hm c List.mem_cons_self))
  obtain ⟨cs', rfl, hv⟩ := henc.of_append hm hcs.symm
  exact ⟨hu, cs', hv⟩

theorem Framed.untorn {s : List Char} (h : Coded enc s) : Untorn tail s := by
  rintro u d v rfl
  obtain ⟨-, cs, hcs⟩ := henc.split_ascii (m := ['\\']) h (by simp) (by decide)
  cases cs with
  | nil => cases hcs
  | cons c cs =>
    obtain ⟨e, ds, he, hlead, -⟩ := henc.lead c
    rw [List.flatMap_cons, he] at hcs
    rwa [(List.cons.inj hcs).1]

theorem Framed.join_ascii {u v m : List Char} (hu : Coded enc u) (hv : Coded enc v)
    (hm : Below 0x80 m) : Coded enc (u ++ (m ++ v)) :=
  hu.append ((henc.coded_ascii hm).append hv)

/-- A class whose translation is text is text. -/
theorem Framed.classText {s rest : List Char} {as : List Atom} (h : ClassText s as rest)
    {text : List Char} {n : ℕ} (hloop : classLoop 0 s = some (text, n)) (htorn : Untorn tail s)
    {g v : List Char} (hcoded : Coded enc (g ++ (text ++ v))) :
    ∃ u, s = u ++ ']' :: rest ∧ Coded enc (g ++ u) ∧ Coded enc v := by
  induction h generalizing text n g with
  | @close rest =>
    rw [classLoop_close] at hloop
    obtain ⟨rfl, -⟩ := Prod.mk.inj (Option.some.inj hloop)
    obtain ⟨hg, hv⟩ := henc.split_ascii hcoded (by simp) (by decide)
    exact ⟨[], rfl, by rwa [List.append_nil], hv⟩
  | @posix name s rest as hne halpha _ ih =>
    rw [classLoop_posix s hne halpha, Option.map_eq_some_iff] at hloop
    obtain ⟨⟨text', n'⟩, hloop', hpair⟩ := hloop
    obtain ⟨rfl, -⟩ := Prod.mk.inj hpair
    rw [List.append_assoc] at hcoded
    obtain ⟨hg, hrest⟩ := henc.split_ascii hcoded (by simp) (posixText_ascii halpha)
    have htorn' : Untorn tail s :=
      Untorn.of_append (u := '[' :: ':' :: (name ++ [':', ']'])) (by simpa using htorn)
    obtain ⟨u, rfl, hu, hv⟩ := ih hloop' htorn' (g := []) hrest
    refine ⟨'[' :: ':' :: (name ++ [':', ']']) ++ u, by simp, ?_, hv⟩
    exact henc.join_ascii hg hu (posixText_ascii halpha)
  | @escape c s rest as _ ih =>
    rw [classLoop_escape, Option.map_eq_some_iff] at hloop
    obtain ⟨⟨text', n'⟩, hloop', hpair⟩ := hloop
    obtain ⟨rfl, -⟩ := Prod.mk.inj hpair
    have htorn' : Untorn tail s := Untorn.of_append (u := ['\\', c]) htorn
    rw [List.append_assoc] at hcoded
    by_cases hc : c.toNat < 0x80
    · obtain ⟨hg, hrest⟩ := henc.split_ascii hcoded (by unfold escapeMember; split_ifs <;> simp)
        fun d hd => escapeMember_ascii c d hc hd
      obtain ⟨u, rfl, hu, hv⟩ := ih hloop' htorn' (g := []) hrest
      exact ⟨['\\', c] ++ u, by simp, henc.join_ascii hg hu (ascii_backslash hc), hv⟩
    · rw [escapeMember_high (Nat.le_of_not_lt hc)] at hcoded
      obtain ⟨hg, hrest⟩ := henc.split hcoded (htorn [] c s rfl)
      obtain ⟨u, rfl, hu, hv⟩ := ih hloop' htorn' (g := [c]) hrest
      exact ⟨'\\' :: c :: u, by simp, henc.join_ascii (m := ['\\']) hg hu (by decide), hv⟩
  | @dash s rest as _ ih =>
    rw [classLoop_chr s (by decide) (by decide) fun h => absurd h (by decide),
      Option.map_eq_some_iff] at hloop
    obtain ⟨⟨text', n'⟩, hloop', hpair⟩ := hloop
    obtain ⟨rfl, -⟩ := Prod.mk.inj hpair
    rw [if_neg (by decide), List.append_assoc] at hcoded
    obtain ⟨hg, hrest⟩ := henc.split_ascii hcoded (by simp) (by decide)
    obtain ⟨u, rfl, hu, hv⟩ := ih hloop' (Untorn.of_append (u := ['-']) htorn) (g := []) hrest
    exact ⟨'-' :: u, by simp, henc.join_ascii (m := ['-']) hg hu (by decide), hv⟩
  | @chr c s rest as hclose hslash hdash hname _ ih =>
    have hnone : c = '[' → posixName s = none := by
      intro hopen
      cases hposix : posixName s with
      | none => rfl
      | some name =>
        obtain ⟨hne, halpha, rest', rfl⟩ := posixName_eq_some.mp hposix
        exact absurd ⟨name, rest', hne, halpha, rfl⟩ (hname hopen)
    rw [classLoop_chr s hclose hslash hnone, Option.map_eq_some_iff] at hloop
    obtain ⟨⟨text', n'⟩, hloop', hpair⟩ := hloop
    obtain ⟨rfl, -⟩ := Prod.mk.inj hpair
    rw [List.append_assoc] at hcoded
    have htorn' : Untorn tail s := Untorn.of_append (u := [c]) htorn
    by_cases hc : c.toNat < 0x80
    · obtain ⟨hg, hrest⟩ := henc.split_ascii hcoded (by split_ifs <;> simp) (ascii_ite hc)
      obtain ⟨u, rfl, hu, hv⟩ := ih hloop' htorn' (g := []) hrest
      refine ⟨c :: u, by simp, henc.join_ascii (m := [c]) hg hu fun d hd => ?_, hv⟩
      rwa [List.mem_singleton.mp hd]
    · rw [if_neg (ne_of_high (Nat.le_of_not_lt hc) (by decide)), ← List.append_assoc] at hcoded
      obtain ⟨u, rfl, hu, hv⟩ := ih hloop' htorn' hcoded
      exact ⟨c :: u, by simp, by simpa using hu, hv⟩

theorem Framed.class {s rest : List Char} {negated : Bool} {as : List Atom}
    (h : Class s negated as rest) {text : List Char} {n : ℕ}
    (happend : Glob.appendClass s = some (text, n)) (htorn : Untorn tail s) {g v : List Char}
    (hcoded : Coded enc (g ++ (text ++ v))) :
    Coded enc g ∧ Coded enc v ∧ ∃ u, s = u ++ rest ∧ Coded enc u := by
  have hbody : ∀ {s : List Char} {text : List Char} {n : ℕ}, ClassBody s as rest →
      Untorn tail s → Glob.classBody s = some (text, n) → Coded enc (text ++ v) →
        Coded enc v ∧ ∃ u, s = u ++ rest ∧ Coded enc u := by
    intro s text n h htorn hbody hcoded
    cases h with
    | @bracket s _ as h =>
      rw [Glob.classBody, List.head?_cons, if_pos rfl, List.tail_cons,
        Option.map_eq_some_iff] at hbody
      obtain ⟨⟨text', n'⟩, hloop, hpair⟩ := hbody
      obtain ⟨rfl, -⟩ := Prod.mk.inj hpair
      rw [List.append_assoc] at hcoded
      obtain ⟨-, hrest⟩ := henc.split_ascii (u := []) (m := "\\]".toList) hcoded (by decide)
        (by decide)
      obtain ⟨u, rfl, hu, hv⟩ := henc.classText h hloop (Untorn.of_append (u := [']']) htorn)
        (g := []) hrest
      refine ⟨hv, ']' :: (u ++ [']']), by simp, ?_⟩
      exact henc.join_ascii (u := []) (m := [']']) ⟨[], rfl⟩
        (hu.append (henc.coded_ascii (by decide))) (by decide)
    | plain hfirst h =>
      rw [Glob.classBody, if_neg hfirst, Option.map_eq_some_iff] at hbody
      obtain ⟨⟨text', n'⟩, hloop, hpair⟩ := hbody
      obtain ⟨rfl, -⟩ := Prod.mk.inj hpair
      obtain ⟨u, rfl, hu, hv⟩ := henc.classText h hloop htorn (g := []) hcoded
      exact ⟨hv, u ++ [']'], by simp, hu.append (henc.coded_ascii (by decide))⟩
  cases h with
  | @negated c s _ as hmark h =>
    have hif : (c :: s).head? = some '!' ∨ (c :: s).head? = some '^' := by simpa using hmark
    rw [Glob.appendClass, if_pos hif, List.tail_cons, Option.map_eq_some_iff] at happend
    obtain ⟨⟨text', n'⟩, hbody', hpair⟩ := happend
    obtain ⟨rfl, -⟩ := Prod.mk.inj hpair
    rw [List.append_assoc] at hcoded
    obtain ⟨hg, hrest⟩ := henc.split_ascii hcoded (by decide) (by decide)
    obtain ⟨hv, u, rfl, hu⟩ := hbody h (Untorn.of_append (u := [c]) htorn) hbody' hrest
    refine ⟨hg, hv, c :: u, rfl, henc.join_ascii (u := []) (m := [c]) ⟨[], rfl⟩ hu ?_⟩
    intro d hd
    rw [List.mem_singleton.mp hd]
    rcases hmark with rfl | rfl <;> decide
  | plain hmark h =>
    rw [Glob.appendClass, if_neg (not_or.mpr hmark), Option.map_eq_some_iff] at happend
    obtain ⟨⟨text', n'⟩, hbody', hpair⟩ := happend
    obtain ⟨rfl, -⟩ := Prod.mk.inj hpair
    rw [List.append_assoc] at hcoded
    obtain ⟨hg, hrest⟩ := henc.split_ascii hcoded (by decide) (by decide)
    obtain ⟨hv, u, rfl, hu⟩ := hbody h htorn hbody' hrest
    exact ⟨hg, hv, u, rfl, hu⟩

/-- A piece of ASCII that stands for one of the pattern. -/
theorem Framed.replace {g s m w text : List Char} {x : Option (List Char)}
    (hx : (m ++ ·) <$> x = some text) (hcoded : Coded enc (g ++ text)) (hne : m ≠ [])
    (hm : Below 0x80 m) (hw : Below 0x80 w)
    (hrest : ∀ text, x = some text → Coded enc ([] ++ text) → Coded enc ([] ++ s)) :
    Coded enc (g ++ (w ++ s)) := by
  obtain ⟨text', rfl, rfl⟩ := Option.map_eq_some_iff.mp hx
  obtain ⟨hg, htext⟩ := henc.split_ascii hcoded hne hm
  exact henc.join_ascii hg (hrest text' rfl htext) hw

/-- A pattern whose translation is text is text. -/
theorem Framed.spells {s : List Char} {ts : List Token} (h : Spells s ts) {text : List Char}
    (hloop : globLoop 0 s = some text) (htorn : Untorn tail s) {g : List Char}
    (hcoded : Coded enc (g ++ text)) : Coded enc (g ++ s) := by
  have hescape : ∀ c, escapeString c ≠ [] := fun c => by unfold escapeString; split_ifs <;> simp
  have hstars : ∀ k, Below 0x80 (List.replicate k '*') := fun k c hc => by
    rw [List.eq_of_mem_replicate hc]
    decide
  induction h generalizing text g with
  | nil => exact Option.some.inj hloop ▸ hcoded
  | @lit c s ts hc _ ih =>
    have htorn' : Untorn tail s := Untorn.of_append (u := [c]) htorn
    rw [globLoop_lit s hc] at hloop
    by_cases hlow : c.toNat < 0x80
    · exact henc.replace (w := [c]) hloop hcoded (hescape c) (fun d hd =>
        escapeString_ascii hlow hd)
        (fun d hd => by rwa [List.mem_singleton.mp hd]) fun text hx => ih hx htorn' (g := [])
    · rw [escapeString_high (Nat.le_of_not_lt hlow)] at hloop
      obtain ⟨text', hloop', rfl⟩ := Option.map_eq_some_iff.mp hloop
      have := ih hloop' htorn' (g := g ++ [c]) (by simpa using hcoded)
      simpa using this
  | @escape c s ts _ ih =>
    have htorn' : Untorn tail s := Untorn.of_append (u := ['\\', c]) htorn
    rw [globLoop_escape] at hloop
    by_cases hlow : c.toNat < 0x80
    · exact henc.replace (w := ['\\', c]) hloop hcoded (hescape c)
        (fun d hd => escapeString_ascii hlow hd) (ascii_backslash hlow) fun text hx =>
          ih hx htorn' (g := [])
    · rw [escapeString_high (Nat.le_of_not_lt hlow)] at hloop
      obtain ⟨text', hloop', rfl⟩ := Option.map_eq_some_iff.mp hloop
      obtain ⟨hg, hrest⟩ := henc.split hcoded (htorn [] c s rfl)
      exact henc.join_ascii (m := ['\\']) hg (ih hloop' htorn' (g := [c]) hrest) (by decide)
  | backslash =>
    obtain rfl : ['\\', '\\'] = text := Option.some.inj hloop
    obtain ⟨hg, -⟩ := henc.split_ascii (m := ['\\', '\\']) (v := []) hcoded (by simp)
      (by decide)
    exact hg.append (henc.coded_ascii (by decide))
  | @any s ts _ ih =>
    rw [globLoop_any] at hloop
    exact henc.replace (w := ['?']) hloop hcoded (by decide) (by decide) (by decide)
      fun text hx => ih hx (Untorn.of_append (u := ['?']) htorn) (g := [])
  | @star s ts hnext _ ih =>
    rw [globLoop_star hnext] at hloop
    exact henc.replace (w := ['*']) hloop hcoded (by decide) (by decide) (by decide)
      fun text hx => ih hx (Untorn.of_append (u := ['*']) htorn) (g := [])
  | @dirs k s ts _ ih =>
    rw [globLoop_dirs] at hloop
    have hsplit : List.replicate (k + 2) '*' ++ '/' :: s =
        (List.replicate (k + 2) '*' ++ ['/']) ++ s := by simp
    rw [hsplit] at htorn ⊢
    refine henc.replace hloop hcoded (by decide) (by decide) (fun d hd => ?_) fun text hx =>
      ih hx htorn.of_append (g := [])
    rcases List.mem_append.mp hd with hd | hd
    · exact hstars _ d hd
    · rw [List.mem_singleton.mp hd]
      decide
  | @dstar k s ts hnext _ ih =>
    rw [globLoop_dstar hnext] at hloop
    exact henc.replace hloop hcoded (by decide) (by decide) (hstars _) fun text hx =>
      ih hx htorn.of_append (g := [])
  | @cls s rest negated as ts hclass _ ih =>
    have htorn' : Untorn tail s := Untorn.of_append (u := ['[']) htorn
    have hraw : ∀ s : List Char, s.flatMap (fun c => [c]) = s := List.flatMap_singleton'
    obtain ⟨text', u, happend, hs, -⟩ := coding_bytes.appendClass hclass
    rw [hraw, hraw] at happend hs
    rw [hs] at happend
    rw [hs, globLoop_class happend] at hloop
    obtain ⟨text'', hloop', rfl⟩ := Option.map_eq_some_iff.mp hloop
    obtain ⟨hg, hv, u', hs', hu'⟩ := henc.class hclass (hs ▸ happend) htorn' hcoded
    have hrest := ih hloop' (Untorn.of_append (hs' ▸ htorn')) (g := []) hv
    rw [hs']
    exact henc.join_ascii (m := ['[']) hg (hu'.append hrest) (by decide)

theorem Framed.globToRegex {pat frag : List Char} {dirOnly : Bool}
    (h : Glob.globToRegex pat = .ok (frag, dirOnly)) (htorn : Untorn tail pat)
    (hcoded : Coded enc frag) : Coded enc pat := by
  have hsplit := List.rdropWhile_append_rtakeWhile (p := (· == '/')) (l := pat)
  simp only [Glob.globToRegex] at h
  split_ifs at h
  cases hloop : globLoop 0 (pat.rdropWhile (· == '/')) with
  | none => rw [hloop] at h; cases h
  | some text =>
    rw [hloop] at h
    obtain ⟨rfl, -⟩ := Prod.mk.inj (Except.ok.inj h)
    have hraw : ∀ s : List Char, s.flatMap (fun c => [c]) = s := List.flatMap_singleton'
    obtain ⟨ts, hts⟩ := coding_bytes.exists_spells (s := pat.rdropWhile (· == '/'))
      (by rw [hraw, hloop]; rfl)
    have hne : Glob.anchorText pat (pat.rdropWhile (· == '/')) ≠ [] := by
      unfold Glob.anchorText
      split_ifs <;> decide
    rw [List.append_assoc] at hcoded
    obtain ⟨-, hrest⟩ := henc.split_ascii (u := []) hcoded hne (anchorText_spec pat _).1
    obtain ⟨htext, -⟩ := henc.split_ascii (m := "$".toList) (v := []) hrest (by decide)
      (by decide)
    rw [← hsplit] at htorn ⊢
    have hbody := henc.spells hts hloop htorn.of_append_left (g := []) htext
    refine hbody.append (henc.coded_ascii fun c hc => ?_)
    have hslash : (c == '/') = true := List.mem_rtakeWhile_imp (p := (· == '/')) hc
    rw [beq_iff_eq.mp hslash]
    decide

end Framed

end Glob

end Oans
