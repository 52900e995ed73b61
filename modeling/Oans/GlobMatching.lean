import Oans.GlobSet

/-!
# What a set of patterns excludes

The patterns of a set are what was added to it, once each and in that order. Whatever paths have
been matched before, a path is credited to the literal it is, or to the first pattern that excludes
it; and the patterns reported at the end are the user's, with those marked that a path was credited
to.
-/

namespace Oans

namespace Glob

section List

variable {α β : Type*} [BEq β]

theorem idxOf?_concat (l : List β) (a b : β) :
    (l ++ [a]).idxOf? b = (l.idxOf? b).or (if a == b then some l.length else none) := by
  rw [List.idxOf?, List.findIdx?_append, List.findIdx?_singleton]
  split_ifs <;> simp

variable [LawfulBEq β] (key : α → β)

/-- Changing what stands at the place of a key is changing what has that key. -/
theorem modify_eq_map {l : List α} {k : β} {i : ℕ} (f : α → α) (hnodup : (l.map key).Nodup)
    (h : (l.map key).idxOf? k = some i) :
    l.modify i f = l.map fun x => if key x == k then f x else x := by
  induction l generalizing i with
  | nil => cases h
  | cons x l ih =>
    rw [List.map_cons, List.nodup_cons] at hnodup
    rw [List.map_cons, List.idxOf?_cons] at h
    cases hx : key x == k with
    | true =>
      rw [if_pos hx] at h
      obtain rfl := Option.some.inj h
      have hrest : l.map (fun x => if key x == k then f x else x) = l := by
        refine (List.map_congr_left fun y hy => if_neg fun hk => hnodup.1 ?_).trans (List.map_id l)
        rw [beq_iff_eq.mp hx, ← beq_iff_eq.mp hk]
        exact List.mem_map_of_mem hy
      simp [hx, hrest]
    | false =>
      rw [if_neg (by simp [hx])] at h
      obtain ⟨j, hj, rfl⟩ := Option.map_eq_some_iff.mp h
      simp [hx, ih hnodup.2 hj]

end List

/-- A call that adds to a set: `glob_set_add_literal()` or `glob_set_add()`. -/
inductive Addition where
  | path (p : List UInt8)
  | pattern (p : List UInt8)

namespace Addition

def entry : Addition → Bool × List UInt8
  | path p => (true, p)
  | pattern p => (isPlainPath p, p)

def user : Addition → Bool
  | path _ => false
  | pattern _ => true

def apply {eng : Engine} (gs : GlobSet eng) : Addition → Except (List UInt8) (GlobSet eng)
  | path p => .ok (gs.addLiteral p true)
  | pattern p => gs.add p

end Addition

/-- What was added, each once and in the order it first was. -/
def entries (adds : List Addition) : List (Bool × List UInt8) :=
  adds.foldl (fun es a => if a.entry ∈ es then es else es ++ [a.entry]) []

def userAdded (adds : List Addition) (e : Bool × List UInt8) : Bool :=
  adds.any fun a => a.user && a.entry == e

theorem entries_concat (adds : List Addition) (a : Addition) :
    entries (adds ++ [a]) =
      if a.entry ∈ entries adds then entries adds else entries adds ++ [a.entry] := by
  rw [entries, List.foldl_concat]
  rfl

theorem userAdded_concat (adds : List Addition) (a : Addition) (e : Bool × List UInt8) :
    userAdded (adds ++ [a]) e = (userAdded adds e || (a.user && a.entry == e)) := by
  simp [userAdded]

theorem mem_entries {adds : List Addition} {e : Bool × List UInt8} :
    e ∈ entries adds ↔ ∃ a ∈ adds, a.entry = e := by
  induction adds using List.reverseRecOn with
  | nil => simp [entries]
  | append_singleton adds a ih =>
    rw [entries_concat]
    split_ifs with h
    · rw [ih]
      constructor
      · rintro ⟨b, hb, rfl⟩
        exact ⟨b, List.mem_append_left _ hb, rfl⟩
      · rintro ⟨b, hb, rfl⟩
        rcases List.mem_append.mp hb with hb | hb
        · exact ⟨b, hb, rfl⟩
        · obtain rfl := List.mem_singleton.mp hb
          exact ih.mp h
    · simp [ih, or_and_right, exists_or, eq_comm]

theorem nodup_entries (adds : List Addition) : (entries adds).Nodup := by
  induction adds using List.reverseRecOn with
  | nil => exact List.nodup_nil
  | append_singleton adds a ih =>
    rw [entries_concat]
    split_ifs with h
    · exact ih
    · exact List.nodup_append.mpr ⟨ih, List.nodup_singleton _, by
        rintro e he _ hf rfl
        exact h (List.mem_singleton.mp hf ▸ he)⟩

theorem userAdded_of_mem {adds : List Addition} {p : List UInt8} (h : (false, p) ∈ entries adds) :
    userAdded adds (false, p) = true := by
  obtain ⟨a, ha, he⟩ := mem_entries.mp h
  refine List.any_eq_true.mpr ⟨a, ha, ?_⟩
  cases a with
  | path q => cases he
  | pattern q => simp [Addition.user, he]

theorem userAdded_of_notMem {adds : List Addition} {e : Bool × List UInt8}
    (h : e ∉ entries adds) : userAdded adds e = false := by
  rw [userAdded, List.any_eq_false]
  intro a ha huser
  exact h (mem_entries.mpr ⟨a, ha, beq_iff_eq.mp (Bool.and_eq_true_iff.mp huser).2⟩)

section Set

variable {eng : Engine} {adds : List Addition} {gs gs' : GlobSet eng}

def GlobPat.entry (gp : GlobPat eng) : Bool × List UInt8 := (gp.isLiteral, gp.pattern)

/-- What a set holds that was added to. -/
structure Held (adds : List Addition) (gs : GlobSet eng) : Prop where
  listed : gs.pats.map GlobPat.entry = entries adds
  compiled : ∀ gp ∈ gs.pats, gp.isLiteral = false → gp.Compiled
  literals : ∀ path, gs.literals.lookup path = (entries adds).idxOf? (true, path)
  internal : ∀ gp ∈ gs.pats, gp.internal = !userAdded adds gp.entry

theorem Held.mem_entries (h : Held adds gs) {gp : GlobPat eng} (hgp : gp ∈ gs.pats) :
    gp.entry ∈ entries adds :=
  h.listed ▸ List.mem_map_of_mem hgp

/-- A set that no path was matched with yet. -/
structure Built (adds : List Addition) (gs : GlobSet eng) : Prop extends Held adds gs where
  matched : ∀ gp ∈ gs.pats, gp.matched = false

theorem GlobSet.patFind_eq (gs : GlobSet eng) (p : List UInt8) (literal : Bool) :
    gs.patFind p literal = (gs.pats.map GlobPat.entry).idxOf? (literal, p) := by
  rw [List.idxOf?, List.findIdx?_map]
  rfl

theorem built_new : Built [] (GlobSet.new : GlobSet eng) where
  listed := rfl
  compiled _ h := by cases h
  literals _ := rfl
  internal _ h := by cases h
  matched _ h := by cases h

/-- A pattern that is not there yet goes behind the others. -/
theorem Built.append (h : Built adds gs) {a : Addition} {gp : GlobPat eng}
    {literals : List (List UInt8 × ℕ)} (ha : a.entry ∉ entries adds) (hentry : gp.entry = a.entry)
    (hcompiled : gp.isLiteral = false → gp.Compiled) (hinternal : gp.internal = !a.user)
    (hmatched : gp.matched = false)
    (hliterals : ∀ path, literals.lookup path =
      (entries adds ++ [a.entry]).idxOf? (true, path)) :
    Built (adds ++ [a]) { gs with pats := gs.pats ++ [gp], literals := literals } := by
  have hes : entries (adds ++ [a]) = entries adds ++ [a.entry] := by
    rw [entries_concat, if_neg ha]
  have hmem : ∀ gp' ∈ gs.pats ++ [gp], gp' ∈ gs.pats ∨ gp' = gp := fun gp' hgp' =>
    (List.mem_append.mp hgp').imp_right List.mem_singleton.mp
  refine ⟨⟨?_, fun gp' hgp' => ?_, hes ▸ hliterals, fun gp' hgp' => ?_⟩, fun gp' hgp' => ?_⟩
  · rw [hes, ← h.listed, ← hentry, List.map_append, List.map_singleton]
  · obtain hold | rfl := hmem gp' hgp'
    · exact h.compiled gp' hold
    · exact hcompiled
  · rw [userAdded_concat]
    obtain hold | rfl := hmem gp' hgp'
    · have hne : a.entry ≠ gp'.entry := fun heq => ha (heq ▸ h.mem_entries hold)
      rw [h.internal gp' hold, beq_eq_false_iff_ne.mpr hne, Bool.and_false, Bool.or_false]
    · rw [hinternal, hentry, userAdded_of_notMem ha, beq_self_eq_true, Bool.and_true,
        Bool.false_or]
  · obtain hold | rfl := hmem gp' hgp'
    · exact h.matched gp' hold
    · exact hmatched

/-- A literal that is there already is the user's as soon as the user adds it. -/
theorem Built.again (h : Built adds gs) {a : Addition} {i : ℕ}
    (ha : (entries adds).idxOf? a.entry = some i) :
    Built (adds ++ [a])
      { gs with
        pats := gs.pats.modify i fun gp => { gp with internal := gp.internal && !a.user } } := by
  have hmem : a.entry ∈ entries adds := by
    rw [← List.isSome_idxOf?, ha]
    rfl
  have hmodify := modify_eq_map GlobPat.entry
    (fun gp => { gp with internal := gp.internal && !a.user })
    (h.listed ▸ nodup_entries adds) (h.listed ▸ ha)
  have hes : entries (adds ++ [a]) = entries adds := by rw [entries_concat, if_pos hmem]
  rw [hmodify]
  refine ⟨⟨?_, fun gp' hgp' => ?_, hes ▸ h.literals, fun gp' hgp' => ?_⟩, fun gp' hgp' => ?_⟩
  · rw [hes, ← h.listed, List.map_map]
    refine List.map_congr_left fun gp _ => ?_
    simp only [Function.comp_apply]
    split_ifs <;> rfl
  · obtain ⟨gp, hgp, rfl⟩ := List.mem_map.mp hgp'
    split_ifs
    · exact h.compiled gp hgp
    · exact h.compiled gp hgp
  · obtain ⟨gp, hgp, rfl⟩ := List.mem_map.mp hgp'
    rw [userAdded_concat]
    split_ifs with hkey
    · change (gp.internal && !a.user) = !(userAdded adds gp.entry || a.user && _ == gp.entry)
      rw [h.internal gp hgp, beq_iff_eq.mp hkey, beq_self_eq_true, Bool.and_true, Bool.not_or]
    · rw [h.internal gp hgp, beq_eq_false_iff_ne.mpr fun heq => hkey (beq_iff_eq.mpr heq.symm),
        Bool.and_false, Bool.or_false]
  · obtain ⟨gp, hgp, rfl⟩ := List.mem_map.mp hgp'
    split_ifs
    · exact h.matched gp hgp
    · exact h.matched gp hgp

theorem Built.addLiteral (h : Built adds gs) {a : Addition} {p : List UInt8}
    (ha : a.entry = (true, p)) : Built (adds ++ [a]) (gs.addLiteral p !a.user) := by
  have hfind := gs.patFind_eq p true
  rw [h.listed, ← ha] at hfind
  rw [GlobSet.addLiteral]
  cases hp : gs.patFind p true with
  | some i => exact h.again (hfind ▸ hp)
  | none =>
    have hnot := List.idxOf?_eq_none_iff.mp (hfind ▸ hp)
    refine h.append hnot ha.symm nofun rfl rfl fun path => ?_
    have hlen : gs.pats.length = (entries adds).length := by
      rw [← h.listed, List.length_map]
    rw [idxOf?_concat, ← h.literals path, List.lookup_cons, hlen, ha]
    by_cases hpath : path = p
    · rw [hpath, h.literals, List.idxOf?_eq_none_iff.mpr (ha ▸ hnot)]
      simp
    · rw [beq_eq_false_iff_ne.mpr hpath]
      simp [Ne.symm hpath]

/-- A pattern that is there already is the user's. -/
theorem Built.repeat (h : Built adds gs) {a : Addition} {p : List UInt8}
    (ha : a.entry = (false, p)) (hmem : (false, p) ∈ entries adds) :
    Built (adds ++ [a]) gs := by
  have hes : entries (adds ++ [a]) = entries adds := by
    rw [entries_concat, ha, if_pos hmem]
  refine ⟨⟨hes ▸ h.listed, h.compiled, hes ▸ h.literals, fun gp hgp => ?_⟩, h.matched⟩
  rw [userAdded_concat, ha, h.internal gp hgp]
  by_cases heq : gp.entry = (false, p)
  · rw [heq, userAdded_of_mem hmem, Bool.true_or]
  · rw [beq_eq_false_iff_ne.mpr (Ne.symm heq), Bool.and_false, Bool.or_false]

theorem GlobSet.add_cases {p : List UInt8} (h : gs.add p = .ok gs') :
    isPlainPath p = true ∧ gs' = gs.addLiteral p false ∨
      isPlainPath p = false ∧ (gs.patFind p false).isSome ∧ gs' = gs ∨
      isPlainPath p = false ∧ gs.patFind p false = none ∧ ∃ gp : GlobPat eng, gp.Compiled ∧
        gp.pattern = p ∧ gp.internal = false ∧ gp.matched = false ∧
        gs' = { gs with pats := gs.pats ++ [gp] } := by
  unfold GlobSet.add at h
  split_ifs at h with hplain hfound
  · exact Or.inl ⟨hplain, (Except.ok.inj h).symm⟩
  · exact Or.inr (Or.inl ⟨Bool.eq_false_of_not_eq_true hplain, hfound, (Except.ok.inj h).symm⟩)
  · refine Or.inr (Or.inr ⟨Bool.eq_false_of_not_eq_true hplain,
      Option.not_isSome_iff_eq_none.mp hfound, ?_⟩)
    cases hfrag : globToRegex (latin1 p) with
    | error err => rw [hfrag] at h; cases h
    | ok out =>
      obtain ⟨frag, dirOnly⟩ := out
      cases hregexes : @GlobSet.patRegexes eng (bytes frag) with
      | error msg => simp only [hfrag, hregexes] at h; cases h
      | ok out =>
        obtain ⟨re, reRaw⟩ := out
        simp only [hfrag, hregexes] at h
        exact ⟨_, ⟨frag, reRaw, hfrag, hregexes, rfl⟩, rfl, rfl, rfl, (Except.ok.inj h).symm⟩

theorem Built.add (h : Built adds gs) {p : List UInt8} (hadd : gs.add p = .ok gs') :
    Built (adds ++ [.pattern p]) gs' := by
  have hfind := gs.patFind_eq p false
  rw [h.listed] at hfind
  obtain ⟨hplain, rfl⟩ | ⟨hplain, hfound, rfl⟩ |
    ⟨hplain, hnone, gp, hcompiled, rfl, hinternal, hmatched, rfl⟩ := GlobSet.add_cases hadd
  · exact h.addLiteral (a := .pattern p) (by rw [Addition.entry, hplain])
  · refine h.repeat (by rw [Addition.entry, hplain]) ?_
    rwa [hfind, List.isSome_idxOf?] at hfound
  · have ha : (Addition.pattern gp.pattern).entry = (false, gp.pattern) := by
      rw [Addition.entry, hplain]
    have hentry : gp.entry = (false, gp.pattern) := by
      rw [GlobPat.entry, hcompiled.not_isLiteral]
    refine h.append (ha ▸ List.idxOf?_eq_none_iff.mp (hfind ▸ hnone)) (hentry.trans ha.symm)
      (fun _ => hcompiled) hinternal hmatched fun path => ?_
    rw [h.literals, idxOf?_concat, ha]
    simp

theorem Built.apply (h : Built adds gs) {a : Addition} (happly : a.apply gs = .ok gs') :
    Built (adds ++ [a]) gs' := by
  cases a with
  | path p =>
    obtain rfl := Except.ok.inj happly
    exact h.addLiteral rfl
  | pattern p => exact h.add happly

/-- A set after every addition to it has succeeded. -/
theorem built_of_additions (h : adds.foldlM Addition.apply .new = .ok gs) :
    Built adds gs := by
  induction adds using List.reverseRecOn generalizing gs with
  | nil =>
    obtain rfl := Except.ok.inj h
    exact built_new
  | append_singleton adds a ih =>
    rw [List.foldlM_append] at h
    cases hadds : adds.foldlM Addition.apply .new with
    | error msg => rw [hadds] at h; cases h
    | ok gs' =>
      rw [hadds] at h
      have hlast : (a.apply gs' >>= pure) = .ok gs := h
      exact (ih hadds).apply (by rwa [bind_pure] at hlast)

/-! ### Matching paths -/

namespace GlobSet

/-- What `glob_set_match()` credits a path to. -/
def named (gs : GlobSet eng) (path : List UInt8) (isDir : Bool) : Option (Bool × List UInt8) :=
  (gs.credited path isDir).bind fun i => gs.pats[i]?.map GlobPat.entry

def mark (gs : GlobSet eng) (marked : Bool × List UInt8 → Bool) : GlobSet eng :=
  { gs with
    pats := gs.pats.map fun gp => { gp with matched := gp.matched || marked gp.entry } }

def walk (gs : GlobSet eng) (paths : List (List UInt8 × Bool)) : GlobSet eng :=
  paths.foldl (fun gs x => (gs.globSetMatch x.1 x.2).2.2) gs

/-- Whether the engine answers for a path, of every expression that the path may be matched with. -/
def Decides (gs : GlobSet eng) (path : List UInt8) : Prop :=
  let raw := (Utf8.decode path).isNone
  ∀ g, (gs.regex raw = some g ∨ ∃ gp ∈ gs.pats, gp.regex raw = some g) → g.Decides raw path

theorem attributed_mark (gs : GlobSet eng) (marked : Bool × List UInt8 → Bool)
    (path : List UInt8) (isDir raw : Bool) :
    (gs.mark marked).attributed path isDir raw = gs.attributed path isDir raw := by
  rw [attributed, mark, List.findIdx?_map]
  rfl

theorem named_mark (gs : GlobSet eng) (marked : Bool × List UInt8 → Bool) (path : List UInt8)
    (isDir : Bool) : (gs.mark marked).named path isDir = gs.named path isDir := by
  have hcredited : (gs.mark marked).credited path isDir = gs.credited path isDir := by
    simp only [credited, attributed_mark]
    rfl
  have hentry : ∀ i : ℕ, (gs.mark marked).pats[i]?.map GlobPat.entry =
      gs.pats[i]?.map GlobPat.entry := by
    intro i
    rw [mark, List.getElem?_map, Option.map_map]
    rfl
  simp only [named, hcredited, hentry]

end GlobSet

/-- Marking patterns changes nothing else a set holds. -/
theorem Held.mark (h : Held adds gs) (marked : Bool × List UInt8 → Bool) :
    Held adds (gs.mark marked) where
  listed := by
    rw [← h.listed, GlobSet.mark, List.map_map]
    rfl
  compiled gp' hgp' := by
    obtain ⟨gp, hgp, rfl⟩ := List.mem_map.mp hgp'
    exact h.compiled gp hgp
  literals := h.literals
  internal gp' hgp' := by
    obtain ⟨gp, hgp, rfl⟩ := List.mem_map.mp hgp'
    exact h.internal gp hgp

theorem Built.compile (h : Built adds gs) (hcompile : gs.compile = .ok gs') : Built adds gs' := by
  obtain ⟨hpats, hliterals, -⟩ := GlobSet.compile_eq_ok hcompile
  exact ⟨⟨hpats ▸ h.listed, hpats ▸ h.compiled, hliterals ▸ h.literals, hpats ▸ h.internal⟩,
    hpats ▸ h.matched⟩

theorem Held.credited (h : Held adds gs) {path : List UInt8} {isDir : Bool} {i : ℕ}
    (hi : gs.credited path isDir = some i) :
    ∃ e, gs.named path isDir = some e ∧ (entries adds).idxOf? e = some i := by
  have hlt : i < gs.pats.length := by
    rw [← List.length_map (f := GlobPat.entry), h.listed]
    unfold GlobSet.credited at hi
    cases hlookup : gs.literals.lookup path with
    | some j =>
      rw [hlookup] at hi
      obtain rfl := Option.some.inj hi
      rw [h.literals] at hlookup
      exact (List.idxOf?_eq_some_iff.mp hlookup).1
    | none =>
      rw [hlookup] at hi
      rw [← h.listed, List.length_map]
      dsimp only at hi
      split at hi
      · cases hi
      · split_ifs at hi
        exact (List.findIdx?_eq_some_iff_getElem.mp hi).1
  have hget : (entries adds)[i]? = some gs.pats[i].entry := by
    rw [← h.listed, List.getElem?_map, List.getElem?_eq_getElem hlt]
    rfl
  refine ⟨gs.pats[i].entry, ?_, ?_⟩
  · rw [GlobSet.named, hi, Option.bind_some, List.getElem?_eq_getElem hlt]
    rfl
  · obtain ⟨hlt', hget'⟩ := List.getElem?_eq_some_iff.mp hget
    refine List.idxOf?_eq_some_iff.mpr ⟨hlt', hget', fun j hj heq => ?_⟩
    exact absurd ((nodup_entries adds).getElem_inj_iff.mp (heq.trans hget'.symm)) hj.ne

/-- A match tells what the path is credited to, and marks that. -/
theorem Held.globSetMatch (h : Held adds gs) (path : List UInt8) (isDir : Bool) :
    gs.globSetMatch path isDir =
      ((gs.named path isDir).isSome, (gs.named path isDir).map Prod.snd,
        gs.mark fun e => gs.named path isDir == some e) := by
  unfold GlobSet.globSetMatch
  cases hcredited : gs.credited path isDir with
  | none =>
    have hnamed : gs.named path isDir = none := by rw [GlobSet.named, hcredited, Option.bind_none]
    have hmark : gs.mark (fun e => gs.named path isDir == some e) = gs := by
      simp [GlobSet.mark, hnamed]
    rw [hmark, hnamed]
    rfl
  | some i =>
    obtain ⟨e, hnamed, hi⟩ := h.credited hcredited
    have hwhich : (gs.pats[i]?).map (·.pattern) = some e.2 := by
      rw [GlobSet.named, hcredited, Option.bind_some, Option.map_eq_some_iff] at hnamed
      obtain ⟨gp, hgp, rfl⟩ := hnamed
      rw [hgp]
      rfl
    have hmark : { gs with pats := gs.pats.modify i fun gp => { gp with matched := true } } =
        gs.mark fun e' => gs.named path isDir == some e' := by
      rw [GlobSet.mark, modify_eq_map GlobPat.entry _ (h.listed ▸ nodup_entries adds)
        (h.listed ▸ hi), hnamed]
      congr 1
      refine List.map_congr_left fun gp _ => ?_
      by_cases hentry : gp.entry = e
      · simp [hentry]
      · have hne : (some e == some gp.entry) = false :=
          beq_eq_false_iff_ne.mpr fun heq => hentry (Option.some.inj heq).symm
        simp [hentry, hne]
    dsimp only
    rw [hwhich, hmark, hnamed]
    rfl

/-- A walk marks what its paths are credited to by the set it starts with. -/
theorem Held.walk (h : Held adds gs) (paths : List (List UInt8 × Bool)) :
    gs.walk paths = gs.mark fun e => decide (∃ x ∈ paths, gs.named x.1 x.2 = some e) := by
  induction paths using List.reverseRecOn with
  | nil => simp [GlobSet.walk, GlobSet.mark]
  | append_singleton paths x ih =>
    rw [GlobSet.walk, List.foldl_append, List.foldl_cons, List.foldl_nil, ← GlobSet.walk, ih,
      (h.mark _).globSetMatch, GlobSet.named_mark]
    simp only [GlobSet.mark, List.map_map]
    congr 1
    refine List.map_congr_left fun gp _ => ?_
    have hlast : decide (∃ y ∈ paths ++ [x], gs.named y.1 y.2 = some gp.entry) =
        (decide (∃ y ∈ paths, gs.named y.1 y.2 = some gp.entry) ||
          gs.named x.1 x.2 == some gp.entry) := by
      rw [Bool.eq_iff_iff]
      simp [or_and_right, exists_or]
    have hentry : ∀ b, GlobPat.entry { gp with matched := b } = gp.entry := fun _ => rfl
    simp only [Function.comp_apply, hentry, hlast, Bool.or_assoc]

theorem Held.named_of_mem (h : Held adds gs) {path : List UInt8} (isDir : Bool)
    (hmem : (true, path) ∈ entries adds) : gs.named path isDir = some (true, path) := by
  obtain ⟨i, hi⟩ := Option.isSome_iff_exists.mp (List.isSome_idxOf?.mpr hmem)
  have hcredited : gs.credited path isDir = some i := by
    rw [GlobSet.credited, h.literals, hi]
  obtain ⟨e, hnamed, he⟩ := h.credited hcredited
  obtain ⟨hlt, hget, -⟩ := List.idxOf?_eq_some_iff.mp hi
  obtain ⟨_, hget', -⟩ := List.idxOf?_eq_some_iff.mp he
  rw [hnamed, hget'.symm.trans hget]

theorem Held.named_of_notMem (h : Held adds gs) {path : List UInt8} (isDir : Bool)
    (hmem : (true, path) ∉ entries adds) :
    gs.named path isDir =
      if (gs.regex (Utf8.decode path).isNone).any (·.isMatch (Utf8.decode path).isNone path) then
        (gs.pats.find? fun gp => gp.hits path isDir (Utf8.decode path).isNone).map GlobPat.entry
      else none := by
  rw [GlobSet.named, GlobSet.credited, h.literals, List.idxOf?_eq_none_iff.mpr hmem]
  dsimp only
  cases gs.regex (Utf8.decode path).isNone with
  | none => rfl
  | some g =>
    cases hmatch : g.isMatch (Utf8.decode path).isNone path with
    | false => simp [hmatch]
    | true =>
      simp only [hmatch, if_true, Option.any_some]
      rw [GlobSet.attributed, List.find?_eq_bind_findIdx?_getElem?, Option.map_bind]
      rfl

/-- What is reported of a set are the user's patterns, with those marked that were. -/
theorem Built.stat_mark (h : Built adds gs) (marked : Bool × List UInt8 → Bool) (i : ℕ) :
    (gs.mark marked).stat i =
      ((entries adds).filter (userAdded adds))[i]?.map fun e => (e.2, marked e) := by
  have hfilter : (gs.pats.filter fun gp => !gp.internal).map GlobPat.entry =
      (entries adds).filter (userAdded adds) := by
    rw [← h.listed, List.filter_map]
    congr 1
    refine List.filter_congr fun gp hgp => ?_
    rw [h.internal gp hgp, Bool.not_not, Function.comp_apply]
  have hmark : ((gs.mark marked).pats.filter fun gp => !gp.internal) =
      (gs.pats.filter fun gp => !gp.internal).map fun gp =>
        { gp with matched := gp.matched || marked gp.entry } := by
    rw [GlobSet.mark, List.filter_map]
    rfl
  rw [GlobSet.stat, hmark, ← hfilter, List.getElem?_map, List.getElem?_map, Option.map_map,
    Option.map_map]
  cases hget : (gs.pats.filter fun gp => !gp.internal)[i]? with
  | none => rfl
  | some gp =>
    have hgp : gp ∈ gs.pats := List.mem_of_mem_filter (List.mem_of_getElem? hget)
    simp [h.matched gp hgp, GlobPat.entry]

/-! ### What the patterns denote -/

open Classical in
/-- What a path should be credited to: the literal it is, or the first pattern that excludes it. -/
noncomputable def creditedTo (eng : Engine) (adds : List Addition) (path : List UInt8)
    (isDir : Bool) : Option (Bool × List UInt8) :=
  if (true, path) ∈ entries adds then some (true, path)
  else (entries adds).find? fun e => !e.1 && decide (Excludes eng e.2 isDir path)

theorem exists_form (path : List UInt8) : ∃ cs, form (Utf8.decode path).isNone path = some cs := by
  cases h : Utf8.decode path with
  | none => exact ⟨_, rfl⟩
  | some cs => exact ⟨cs, h⟩

theorem excludes_iff {pattern path : List UInt8} {isDir : Bool} {cs : List Char}
    (h : form (Utf8.decode path).isNone path = some cs) :
    Excludes eng pattern isDir path ↔ ∃ pcs, form (Utf8.decode path).isNone pattern = some pcs ∧
      Denotes (eng.posix (Utf8.decode path).isNone) pcs isDir cs := by
  constructor
  · rintro ⟨pcs, cs', hpcs, hcs', hdenotes⟩
    obtain rfl := Option.some.inj (h.symm.trans hcs')
    exact ⟨pcs, hpcs, hdenotes⟩
  · rintro ⟨pcs, hpcs, hdenotes⟩
    exact ⟨pcs, cs, hpcs, h, hdenotes⟩

theorem creditedTo_isSome {path : List UInt8} {isDir : Bool} :
    (creditedTo eng adds path isDir).isSome = true ↔ (true, path) ∈ entries adds ∨
      ∃ p, (false, p) ∈ entries adds ∧ Excludes eng p isDir path := by
  unfold creditedTo
  split_ifs with hmem
  · simp [hmem]
  · simp [hmem]

theorem GlobPat.regex_of_isLiteral {gp : GlobPat eng} (h : gp.isLiteral = true) (raw : Bool) :
    gp.regex raw = none := by
  rw [GlobPat.isLiteral, Bool.and_eq_true, Option.isNone_iff_eq_none,
    Option.isNone_iff_eq_none] at h
  cases raw with
  | true => exact h.2
  | false => exact h.1

theorem Held.not_isLiteral (h : Held adds gs) {gp : GlobPat eng} (hgp : gp ∈ gs.pats) {raw : Bool}
    {g : GRegex eng} (hg : gp.regex raw = some g) :
    gp.Compiled ∧ gp.entry = (false, gp.pattern) := by
  cases hlit : gp.isLiteral with
  | true => rw [GlobPat.regex_of_isLiteral hlit] at hg; cases hg
  | false => exact ⟨h.compiled gp hgp hlit, by rw [GlobPat.entry, hlit]⟩

section Follows

variable (hfollows : eng.Follows) (hord : ∀ p, (false, p) ∈ entries adds → Ordinary p)

include hfollows

/-- The joined expressions are found where some pattern's is. -/
theorem Built.joined (h : Built adds gs) (hcompile : gs.compile = .ok gs') (raw : Bool) :
    (∀ g, gs'.regex raw = some g → g.Valid raw ∧ ∃ r, g.Means raw r) ∧
      ∀ cs, (∃ g, gs'.regex raw = some g ∧ g.Finds raw cs) ↔
        ∃ gp ∈ gs'.pats, ∃ g, gp.regex raw = some g ∧ g.Finds raw cs := by
  obtain ⟨hpats, -, hone⟩ := GlobSet.compile_eq_ok hcompile
  rw [hpats]
  refine GlobSet.compileOne_spec (hone raw) (fun gp hgp g hg => ?_) fun gp hgp g hg => ?_
  · exact (h.not_isLiteral hgp hg).1.valid hg
  · exact (h.not_isLiteral hgp hg).1.means hfollows hg

include hord

theorem Held.excludes_of_hits (h : Held adds gs) {gp : GlobPat eng} (hgp : gp ∈ gs.pats)
    {path : List UInt8} {isDir : Bool}
    (hhits : gp.hits path isDir (Utf8.decode path).isNone = true) :
    gp.entry = (false, gp.pattern) ∧ Excludes eng gp.pattern isDir path := by
  obtain ⟨cs, hcs⟩ := exists_form path
  unfold GlobPat.hits at hhits
  cases hg : gp.regex (Utf8.decode path).isNone with
  | none => rw [hg] at hhits; cases hhits
  | some g =>
    rw [hg] at hhits
    obtain ⟨hdir, hmatch⟩ := Bool.and_eq_true_iff.mp hhits
    obtain ⟨hcompiled, hentry⟩ := h.not_isLiteral hgp hg
    obtain ⟨r, hr⟩ := hcompiled.means hfollows hg
    have hfinds := GRegex.finds_of_isMatch hfollows (hcompiled.valid hg) hr hcs hmatch
    have hmem : (false, gp.pattern) ∈ entries adds := hentry ▸ h.mem_entries hgp
    refine ⟨hentry, (excludes_iff hcs).mpr ?_⟩
    refine (hcompiled.finds_iff hfollows (hord _ hmem) _ isDir cs).mp ⟨?_, g, hg, hfinds⟩
    simpa [imp_iff_not_or] using hdir

/-- Where the engine answers, those are all that exclude it. -/
theorem Held.hits_iff (h : Held adds gs) {gp : GlobPat eng} (hgp : gp ∈ gs.pats)
    {path : List UInt8} {isDir : Bool} (hdecides : ∀ g,
      gp.regex (Utf8.decode path).isNone = some g → g.Decides (Utf8.decode path).isNone path) :
    gp.hits path isDir (Utf8.decode path).isNone = true ↔
      gp.entry.1 = false ∧ Excludes eng gp.entry.2 isDir path := by
  constructor
  · intro hhits
    obtain ⟨hentry, hexcludes⟩ := h.excludes_of_hits hfollows hord hgp hhits
    rw [hentry]
    exact ⟨rfl, hexcludes⟩
  · rintro ⟨hlit, hexcludes⟩
    obtain ⟨cs, hcs⟩ := exists_form path
    have hentry : gp.entry = (false, gp.pattern) := Prod.ext hlit rfl
    have hcompiled := h.compiled gp hgp hlit
    obtain ⟨hdir, g, hg, hfound⟩ := (hcompiled.finds_iff hfollows
      (hord _ (hentry ▸ h.mem_entries hgp)) _ isDir cs).mpr ((excludes_iff hcs).mp hexcludes)
    obtain ⟨r, hr⟩ := hcompiled.means hfollows hg
    have hmatch := (GRegex.isMatch_iff hfollows (hcompiled.valid hg) hr hcs (hdecides g hg)).mpr
      hfound
    simp only [GlobPat.hits, hg, hmatch, Bool.and_true]
    simpa [imp_iff_not_or] using hdir

/-- A path is credited to nothing but a literal that it is, or a pattern that excludes it. -/
theorem Held.named_sound (h : Held adds gs) {path : List UInt8} {isDir : Bool}
    {e : Bool × List UInt8} (hnamed : gs.named path isDir = some e) :
    e ∈ entries adds ∧ (e = (true, path) ∨ e.1 = false ∧ Excludes eng e.2 isDir path) := by
  by_cases hmem : (true, path) ∈ entries adds
  · rw [h.named_of_mem isDir hmem] at hnamed
    obtain rfl := Option.some.inj hnamed
    exact ⟨hmem, Or.inl rfl⟩
  · rw [h.named_of_notMem isDir hmem] at hnamed
    split_ifs at hnamed
    obtain ⟨gp, hfind, rfl⟩ := Option.map_eq_some_iff.mp hnamed
    have hgp := List.mem_of_find?_eq_some hfind
    have hhits : gp.hits path isDir (Utf8.decode path).isNone = true := by
      simpa using List.find?_some hfind
    obtain ⟨hentry, hexcludes⟩ := h.excludes_of_hits hfollows hord hgp hhits
    refine ⟨h.mem_entries hgp, Or.inr ?_⟩
    rw [hentry]
    exact ⟨rfl, hexcludes⟩

/-- Where the engine answers, a path is credited to what it should be. -/
theorem Built.named_eq (h : Built adds gs) (hcompile : gs.compile = .ok gs') {path : List UInt8}
    (hdecides : gs'.Decides path) (isDir : Bool) :
    gs'.named path isDir = creditedTo eng adds path isDir := by
  classical
  have hbuilt := h.compile hcompile
  unfold creditedTo
  by_cases hmem : (true, path) ∈ entries adds
  · rw [if_pos hmem, hbuilt.named_of_mem isDir hmem]
  rw [if_neg hmem, hbuilt.named_of_notMem isDir hmem, ← hbuilt.listed, List.find?_map]
  have hhits : ∀ gp ∈ gs'.pats, gp.hits path isDir (Utf8.decode path).isNone =
      (!gp.entry.1 && decide (Excludes eng gp.entry.2 isDir path)) := by
    intro gp hgp
    rw [Bool.eq_iff_iff, hbuilt.hits_iff hfollows hord hgp fun g hg =>
      hdecides g (Or.inr ⟨gp, hgp, hg⟩)]
    simp
  have hfind := List.find?_congr hhits
  split_ifs with hany
  · rw [hfind]
    rfl
  · -- where the joined expression is not found, no pattern is
    obtain ⟨cs, hcs⟩ := exists_form path
    obtain ⟨hjoined, hfinds⟩ := h.joined hfollows hcompile (Utf8.decode path).isNone
    have hnone :
        (gs'.pats.find? fun gp => gp.hits path isDir (Utf8.decode path).isNone) = none := by
      refine List.find?_eq_none.mpr fun gp hgp hhit => hany ?_
      obtain ⟨hentry, hexcludes⟩ := hbuilt.excludes_of_hits hfollows hord hgp hhit
      obtain ⟨-, hfound⟩ := ((hbuilt.compiled gp hgp (congrArg Prod.fst hentry)).finds_iff hfollows
        (hord _ (hentry ▸ hbuilt.mem_entries hgp)) _ isDir cs).mpr ((excludes_iff hcs).mp hexcludes)
      obtain ⟨g, hg, hg'⟩ := (hfinds cs).mpr ⟨gp, hgp, hfound⟩
      obtain ⟨hvalid, r, hr⟩ := hjoined g hg
      rw [hg, Option.any_some, GRegex.isMatch_iff hfollows hvalid hr hcs (hdecides g (Or.inl hg))]
      exact hg'
    rw [hnone] at hfind
    exact (Option.map_eq_none_iff.mpr hfind.symm).symm

end Follows

/-- Whatever paths were matched before, a path is excluded only if it is one of the literals or
some pattern excludes it, and what is named is that one. Where the engine answers for the path, it
is excluded if and only if that is so, and the literal or the first such pattern in the order of
their addition is named. -/
theorem globSetMatch_after_walk (hfollows : eng.Follows)
    (hadds : adds.foldlM Addition.apply .new = .ok gs) {compiled : GlobSet eng}
    (hcompile : gs.compile = .ok compiled)
    (hord : ∀ p, (false, p) ∈ entries adds → Ordinary p) (paths : List (List UInt8 × Bool))
    (path : List UInt8) (isDir : Bool) :
    (((compiled.walk paths).globSetMatch path isDir).1 = true →
      ∃ e ∈ entries adds, ((compiled.walk paths).globSetMatch path isDir).2.1 = some e.2 ∧
        (e = (true, path) ∨ e.1 = false ∧ Excludes eng e.2 isDir path)) ∧
    (compiled.Decides path →
      (((compiled.walk paths).globSetMatch path isDir).1 = true ↔
        (true, path) ∈ entries adds ∨ ∃ p, (false, p) ∈ entries adds ∧ Excludes eng p isDir path) ∧
      ((compiled.walk paths).globSetMatch path isDir).2.1 =
        (creditedTo eng adds path isDir).map Prod.snd) := by
  have hbuilt := built_of_additions hadds
  have hready := hbuilt.compile hcompile
  rw [hready.walk paths, (hready.toHeld.mark _).globSetMatch, GlobSet.named_mark]
  constructor
  · intro hsome
    obtain ⟨e, he⟩ := Option.isSome_iff_exists.mp hsome
    obtain ⟨hmem, hsound⟩ := hready.named_sound hfollows hord he
    exact ⟨e, hmem, by rw [he]; rfl, hsound⟩
  · intro hdecides
    rw [hbuilt.named_eq hfollows hord hcompile hdecides]
    exact ⟨creditedTo_isSome, rfl⟩

end Set

/-- An engine that reads every text it can, and never gives up. -/
def plainEngine : Engine where
  Code := Regex Char
  posix _ _ := none
  compile raw text :=
    match (form raw text).bind (Pcre.compile fun _ => none) with
    | none => .error text
    | some r => .ok r
  exec raw r path := (form raw path).map r.search

theorem plainEngine_compile {raw : Bool} {pattern : List UInt8} {r : plainEngine.Code}
    (h : plainEngine.compile raw pattern = .ok r) :
    ∃ text, form raw pattern = some text ∧ Pcre.compile (plainEngine.posix raw) text = some r := by
  simp only [plainEngine] at h
  cases hread : (form raw pattern).bind (Pcre.compile fun _ => none) with
  | none => rw [hread] at h; cases h
  | some r' =>
    rw [hread] at h
    obtain rfl := Except.ok.inj h
    exact Option.bind_eq_some_iff.mp hread

theorem plainEngine_follows : plainEngine.Follows where
  reads _ hcompile := by
    obtain ⟨text, htext, hr⟩ := plainEngine_compile hcompile
    exact ⟨text, _, htext, hr⟩
  finds _ hcompile htext hr hpath hexec := by
    obtain ⟨text', htext', hr'⟩ := plainEngine_compile hcompile
    obtain rfl := Option.some.inj (htext.symm.trans htext')
    obtain rfl := Option.some.inj (hr.symm.trans hr')
    simp only [plainEngine, hpath, Option.map_some, Option.some.injEq] at hexec
    rw [← hexec]
    exact Regex.search_iff

theorem plainEngine_decides (gs : GlobSet plainEngine) (path : List UInt8) : gs.Decides path := by
  intro g _
  obtain ⟨cs, hcs⟩ := exists_form path
  simp [GRegex.Decides, plainEngine, hcs]

def objectPattern : List UInt8 := bytes "*.[!a-n]".toList

def objectPath : List UInt8 := bytes "/src/y.o".toList

def objectAdditions : List Addition :=
  [.path (bytes "/h".toList), .pattern objectPattern]

theorem entries_object : entries objectAdditions =
    [(true, bytes "/h".toList), (false, objectPattern)] := by
  decide +kernel

theorem ordinary_object : ∀ p, (false, p) ∈ entries objectAdditions → Ordinary p := by
  intro p hp
  rw [entries_object] at hp
  obtain rfl : p = objectPattern := by simpa using hp
  refine ordinary_of_decode (by decide +kernel) fun c hc => ?_
  rcases hc with rfl | rfl <;> decide +kernel

theorem excludes_object : Excludes plainEngine objectPattern false objectPath := by
  have hclass : Class "!a-n]".toList true [.chr 'a', .dash, .chr 'n'] [] :=
    .negated (Or.inl rfl) (.plain (by decide) (.chr (by decide) (by decide) (by decide) nofun
      (.dash (.chr (by decide) (by decide) (by decide) nofun .close))))
  have hspells : Spells "*.[!a-n]".toList
      [.star, .lit '.', .cls true [.chr 'a', .dash, .chr 'n']] :=
    .star (by decide) (.lit (by decide) (.cls hclass .nil))
  refine ⟨"*.[!a-n]".toList, "/src/y.o".toList, by decide +kernel, by decide +kernel, nofun,
    _, hspells, ?_⟩
  refine (denotes_basename "*.[!a-n]".toList (by decide) hspells (by simp) _).mpr ?_
  refine Language.mem_mul.mpr ⟨['y'], ?_, ".o".toList, ?_, rfl⟩
  · change '/' ∉ ['y']
    decide
  · refine Language.mem_mul.mpr ⟨['.'], rfl, ['o'], ?_, rfl⟩
    exact Language.mem_mul.mpr ⟨['o'], ⟨'o', _, rfl, by decide, rfl, by decide⟩, [], rfl, rfl⟩

theorem compiled_object : ∃ gs compiled : GlobSet plainEngine,
    objectAdditions.foldlM Addition.apply .new = .ok gs ∧ gs.compile = .ok compiled := by
  have hok : ((objectAdditions.foldlM Addition.apply (GlobSet.new : GlobSet plainEngine)).bind
      GlobSet.compile).isOk = true := by
    decide +kernel
  cases hadds : objectAdditions.foldlM Addition.apply (GlobSet.new : GlobSet plainEngine) with
  | error msg => rw [hadds] at hok; cases hok
  | ok gs =>
    rw [hadds] at hok
    cases hcompile : gs.compile with
    | error msg =>
      have hok' : gs.compile.isOk = true := hok
      rw [hcompile] at hok'
      cases hok'
    | ok compiled => exact ⟨gs, compiled, rfl, hcompile⟩

theorem creditedTo_object : creditedTo plainEngine objectAdditions objectPath false =
    some (false, objectPattern) := by
  have hliteral : (true, objectPath) ∉ entries objectAdditions := by decide +kernel
  have hexcludes := excludes_object
  rw [creditedTo, if_neg hliteral, entries_object]
  generalize objectPattern = pattern at hexcludes ⊢
  generalize objectPath = path at hexcludes ⊢
  simp [hexcludes]

theorem globSetMatch_after_walk_object : ∃ gs compiled : GlobSet plainEngine,
    objectAdditions.foldlM Addition.apply .new = .ok gs ∧ gs.compile = .ok compiled ∧
      ((compiled.walk [(bytes "/a".toList, true)]).globSetMatch objectPath false).1 = true ∧
      ((compiled.walk [(bytes "/a".toList, true)]).globSetMatch objectPath false).2.1 =
        some objectPattern := by
  obtain ⟨gs, compiled, hadds, hcompile⟩ := compiled_object
  obtain ⟨hmatch, hnamed⟩ := (globSetMatch_after_walk plainEngine_follows hadds hcompile
    ordinary_object [(bytes "/a".toList, true)] objectPath false).2 (plainEngine_decides _ _)
  refine ⟨gs, compiled, hadds, hcompile, hmatch.mpr (Or.inr ⟨_, ?_, excludes_object⟩), ?_⟩
  · decide +kernel
  · rw [hnamed, creditedTo_object]
    rfl

/-- What is reported at the end are the user's patterns, each once and in the order of their
addition, and as matched those that some path of the walk was credited to, which is what a match
of that path names, whatever the engine answers. -/
theorem stat_after_walk {eng : Engine} {adds : List Addition} {gs compiled : GlobSet eng}
    (hadds : adds.foldlM Addition.apply .new = .ok gs) (hcompile : gs.compile = .ok compiled)
    (paths : List (List UInt8 × Bool)) :
    (∀ i, (compiled.walk paths).stat i = ((entries adds).filter (userAdded adds))[i]?.map fun e =>
      (e.2, decide (∃ x ∈ paths, compiled.named x.1 x.2 = some e))) ∧
    ∀ path isDir, ((compiled.walk paths).globSetMatch path isDir).2.1 =
      (compiled.named path isDir).map Prod.snd := by
  have hbuilt := (built_of_additions hadds).compile hcompile
  rw [hbuilt.walk paths]
  refine ⟨hbuilt.stat_mark _, fun path isDir => ?_⟩
  rw [(hbuilt.toHeld.mark _).globSetMatch, GlobSet.named_mark]

theorem stat_after_walk_object : ∃ gs compiled : GlobSet plainEngine,
    objectAdditions.foldlM Addition.apply .new = .ok gs ∧ gs.compile = .ok compiled ∧
      (compiled.walk [(bytes "/a".toList, true), (objectPath, false)]).stat 0 =
        some (objectPattern, true) := by
  obtain ⟨gs, compiled, hadds, hcompile⟩ := compiled_object
  refine ⟨gs, compiled, hadds, hcompile, ((stat_after_walk hadds hcompile _).1 0).trans ?_⟩
  have hnamed : compiled.named objectPath false = some (false, objectPattern) := by
    rw [(built_of_additions hadds).named_eq plainEngine_follows ordinary_object hcompile
      (plainEngine_decides _ _), creditedTo_object]
  have hfirst : ((entries objectAdditions).filter (userAdded objectAdditions))[0]? =
      some (false, objectPattern) := by decide +kernel
  rw [hfirst, Option.map_some,
    decide_eq_true ⟨_, List.mem_cons_of_mem _ List.mem_cons_self, hnamed⟩]

end Glob

end Oans
