import Mathlib.Computability.Language
import Mathlib.Logic.Relation
import Mathlib.Tactic

/-!
# Regular expressions with anchors and a negative lookahead

An expression relates the positions of a text between which it matches. The matcher lists the
positions a match can end at; an expression without anchors moves over the words of a language,
and a search for an anchored one asks whether the text is such a word.
-/

universe u

inductive Regex (α : Type u) where
  | empty
  | one (p : α → Bool)
  | cat (r s : Regex α)
  | alt (r s : Regex α)
  | star (r : Regex α)
  | bos
  | eos
  | notAhead (r : Regex α)

namespace Regex

variable {α : Type u}

/-- A place in a text: what stands before it, nearest first, and what follows. -/
@[ext] structure Pos (α : Type u) where
  passed : List α
  rest : List α

def Pos.text (p : Pos α) : List α := p.passed.reverse ++ p.rest

structure Pos.Over (w : List α) (p q : Pos α) : Prop where
  rest : p.rest = w ++ q.rest
  passed : q.passed = w.reverse ++ p.passed

def Matches : Regex α → Pos α → Pos α → Prop
  | empty => Eq
  | one f => fun p q => ∃ c, f c = true ∧ p.Over [c] q
  | cat r s => Relation.Comp (Matches r) (Matches s)
  | alt r s => fun p q => Matches r p q ∨ Matches s p q
  | star r => Relation.ReflTransGen (Matches r)
  | bos => fun p q => p.passed = [] ∧ p = q
  | eos => fun p q => p.rest = [] ∧ p = q
  | notAhead r => fun p q => (∀ m, ¬ Matches r p m) ∧ p = q

def Search (r : Regex α) (w : List α) : Prop := ∃ p q, p.text = w ∧ Matches r p q

namespace Pos

variable {v w : List α} {p q m : Pos α}

theorem Over.nil (p : Pos α) : p.Over [] p := ⟨rfl, rfl⟩

theorem Over.eq (h : p.Over [] q) : p = q := Pos.ext h.passed.symm h.rest

theorem Over.trans (h : p.Over v m) (h' : m.Over w q) : p.Over (v ++ w) q where
  rest := by rw [h.rest, h'.rest, List.append_assoc]
  passed := by rw [h'.passed, h.passed, List.reverse_append, List.append_assoc]

theorem Over.text (h : p.Over w q) : q.text = p.text := by
  rw [Pos.text, Pos.text, h.rest, h.passed, List.reverse_append, List.reverse_reverse,
    List.append_assoc]

theorem Over.split (h : p.Over (v ++ w) q) : ∃ m, p.Over v m ∧ m.Over w q := by
  refine ⟨⟨v.reverse ++ p.passed, w ++ q.rest⟩, ⟨?_, rfl⟩, ⟨rfl, ?_⟩⟩
  · rw [h.rest, List.append_assoc]
  · rw [h.passed, List.reverse_append, List.append_assoc]

end Pos

theorem Matches.over {r : Regex α} {p q : Pos α} (h : Matches r p q) : ∃ w, p.Over w q := by
  induction r generalizing p q with
  | empty => exact ⟨[], h ▸ Pos.Over.nil p⟩
  | one f =>
    obtain ⟨c, -, hover⟩ := h
    exact ⟨[c], hover⟩
  | cat r s ihr ihs =>
    obtain ⟨m, hr, hs⟩ := h
    obtain ⟨v, hv⟩ := ihr hr
    obtain ⟨w, hw⟩ := ihs hs
    exact ⟨v ++ w, hv.trans hw⟩
  | alt r s ihr ihs => exact h.elim ihr ihs
  | star r ih =>
    have hstar : Relation.ReflTransGen (Matches r) p q := h
    clear h
    induction hstar with
    | refl => exact ⟨[], .nil p⟩
    | tail _ hstep ihs =>
      obtain ⟨v, hv⟩ := ihs
      obtain ⟨w, hw⟩ := ih hstep
      exact ⟨v ++ w, hv.trans hw⟩
  | bos => exact ⟨[], h.2 ▸ Pos.Over.nil p⟩
  | eos => exact ⟨[], h.2 ▸ Pos.Over.nil p⟩
  | notAhead r _ => exact ⟨[], h.2 ▸ Pos.Over.nil p⟩

theorem Matches.rest_le {r : Regex α} {p q : Pos α} (h : Matches r p q) :
    q.rest.length ≤ p.rest.length := by
  obtain ⟨w, hw⟩ := h.over
  rw [hw.rest, List.length_append]
  omega

/-- A match that leaves as much of the text as it found has not moved. -/
theorem Matches.eq_of_rest {r : Regex α} {p q : Pos α} (h : Matches r p q)
    (hlen : p.rest.length ≤ q.rest.length) : p = q := by
  obtain ⟨w, hw⟩ := h.over
  have hnil : w = [] := by
    have := congrArg List.length hw.rest
    rw [List.length_append] at this
    exact List.length_eq_zero_iff.mp (by omega)
  rw [hnil] at hw
  exact hw.eq

/-- Where repeated moves by `f` lead, each over some of the text. -/
def starEnds (f : Pos α → List (Pos α)) : ℕ → Pos α → List (Pos α)
  | 0, p => [p]
  | fuel + 1, p =>
    p :: ((f p).filter fun m => decide (m.rest.length < p.rest.length)).flatMap (starEnds f fuel)

def ends : Regex α → Pos α → List (Pos α)
  | empty, p => [p]
  | one f, p =>
    match p.rest with
    | [] => []
    | c :: s => if f c then [⟨c :: p.passed, s⟩] else []
  | cat r s, p => (ends r p).flatMap (ends s)
  | alt r s, p => ends r p ++ ends s p
  | star r, p => starEnds (ends r) p.rest.length p
  | bos, p => if p.passed.isEmpty then [p] else []
  | eos, p => if p.rest.isEmpty then [p] else []
  | notAhead r, p => if (ends r p).isEmpty then [p] else []

def places : List α → List α → List (Pos α)
  | passed, [] => [⟨passed, []⟩]
  | passed, c :: s => ⟨passed, c :: s⟩ :: places (c :: passed) s

def search (r : Regex α) (w : List α) : Bool :=
  (places [] w).any fun p => !(ends r p).isEmpty

theorem mem_starEnds {r : Regex α} {f : Pos α → List (Pos α)}
    (hf : ∀ p q, q ∈ f p ↔ Matches r p q) {n : ℕ} {p q : Pos α} (hn : p.rest.length ≤ n) :
    q ∈ starEnds f n p ↔ Matches (star r) p q := by
  induction n generalizing p with
  | zero =>
    have hnil : p.rest.length = 0 := by omega
    constructor
    · intro h
      rw [List.mem_singleton.mp h]
      exact .refl
    · intro h
      rw [h.eq_of_rest (by omega)]
      exact List.mem_singleton_self _
  | succ n ih =>
    simp only [starEnds, List.mem_cons, List.mem_flatMap, List.mem_filter, decide_eq_true_eq, hf]
    constructor
    · rintro (rfl | ⟨m, ⟨hstep, hlt⟩, hm⟩)
      · exact .refl
      · exact .head hstep ((ih (by omega)).mp hm)
    · intro h
      have hstar : Relation.ReflTransGen (Matches r) p q := h
      clear h
      induction hstar using Relation.ReflTransGen.head_induction_on with
      | refl => exact Or.inl rfl
      | @head a m hstep hrest ihs =>
        rcases hstep.rest_le.lt_or_eq with hlt | heq
        · exact Or.inr ⟨m, ⟨hstep, hlt⟩, (ih (by omega)).mpr hrest⟩
        · rw [hstep.eq_of_rest heq.ge]
          exact ihs (by omega)

theorem mem_ends {r : Regex α} {p q : Pos α} : q ∈ ends r p ↔ Matches r p q := by
  induction r generalizing p q with
  | empty => exact List.mem_singleton.trans eq_comm
  | one f =>
    obtain ⟨passed, rest⟩ := p
    cases rest with
    | nil =>
      simp only [ends, List.not_mem_nil, Matches, false_iff, not_exists, not_and]
      rintro c - ⟨hrest, -⟩
      cases hrest
    | cons d s =>
      constructor
      · intro h
        simp only [ends] at h
        split_ifs at h with hd
        · rw [List.mem_singleton.mp h]
          exact ⟨d, hd, rfl, rfl⟩
        · cases h
      · rintro ⟨c, hc, hrest, hpassed⟩
        obtain ⟨rfl, hs⟩ := List.cons.inj hrest
        simp only [ends, if_pos hc, List.mem_singleton]
        exact Pos.ext hpassed hs.symm
  | cat r s ihr ihs =>
    simp only [ends, List.mem_flatMap, ihr, ihs]
    rfl
  | alt r s ihr ihs => simp only [ends, List.mem_append, ihr, ihs, Matches]
  | star r ih => exact mem_starEnds (fun _ _ => ih) le_rfl
  | bos =>
    simp only [ends, List.isEmpty_iff, Matches]
    split_ifs with h <;> simp [h, eq_comm]
  | eos =>
    simp only [ends, List.isEmpty_iff, Matches]
    split_ifs with h <;> simp [h, eq_comm]
  | notAhead r ih =>
    have hempty : (ends r p).isEmpty = true ↔ ∀ m, ¬ Matches r p m := by
      rw [List.isEmpty_iff, List.eq_nil_iff_forall_not_mem]
      exact forall_congr' fun m => not_congr ih
    simp only [ends, Matches, ← hempty]
    split_ifs with h
    · rw [List.mem_singleton]
      exact ⟨fun heq => ⟨h, heq.symm⟩, fun heq => heq.2.symm⟩
    · exact ⟨fun hmem => absurd hmem List.not_mem_nil, fun hmatch => absurd hmatch.1 h⟩

theorem mem_places {w : List α} {p : Pos α} {passed : List α} :
    p ∈ places passed w ↔ ∃ v, w = v ++ p.rest ∧ p.passed = v.reverse ++ passed := by
  induction w generalizing passed with
  | nil =>
    simp only [places, List.mem_singleton, Pos.ext_iff]
    constructor
    · rintro ⟨hpassed, hrest⟩
      exact ⟨[], hrest.symm, hpassed⟩
    · rintro ⟨v, hw, hpassed⟩
      obtain ⟨rfl, hrest⟩ := List.append_eq_nil_iff.mp hw.symm
      exact ⟨hpassed, hrest⟩
  | cons c s ih =>
    simp only [places, List.mem_cons, Pos.ext_iff, ih]
    constructor
    · rintro (⟨hpassed, hrest⟩ | ⟨v, hs, hpassed⟩)
      · exact ⟨[], hrest.symm, hpassed⟩
      · refine ⟨c :: v, by rw [hs, List.cons_append], ?_⟩
        rw [hpassed, List.reverse_cons, List.append_assoc, List.singleton_append]
    · rintro ⟨v, hw, hpassed⟩
      cases v with
      | nil => exact Or.inl ⟨hpassed, hw.symm⟩
      | cons d v =>
        obtain ⟨rfl, hs⟩ := List.cons.inj hw
        refine Or.inr ⟨v, hs, ?_⟩
        rw [hpassed, List.reverse_cons, List.append_assoc, List.singleton_append]

theorem search_iff {r : Regex α} {w : List α} : search r w = true ↔ Search r w := by
  have hplace : ∀ p : Pos α, p ∈ places [] w ↔ p.text = w := by
    intro p
    rw [mem_places]
    constructor
    · rintro ⟨v, rfl, hpassed⟩
      rw [Pos.text, hpassed, List.append_nil, List.reverse_reverse]
    · intro h
      exact ⟨p.passed.reverse, h.symm, by rw [List.reverse_reverse, List.append_nil]⟩
  simp only [search, List.any_eq_true, hplace, Bool.not_eq_true',
    List.isEmpty_eq_false_iff_exists_mem, mem_ends, Search]
  exact ⟨fun ⟨p, hp, q, hq⟩ => ⟨p, q, hp, hq⟩, fun ⟨p, q, hp, hq⟩ => ⟨p, hp, q, hq⟩⟩

/-! ### Expressions that move over the words of a language -/

/-- `r` matches from one place to another exactly over the words of `L`, wherever they stand. -/
def Reads (r : Regex α) (L : Language α) : Prop :=
  ∀ p q, Matches r p q ↔ ∃ w ∈ L, p.Over w q

def chars (f : α → Bool) : Language α := {w | ∃ c, f c = true ∧ w = [c]}

section Reads

variable {r s : Regex α} {L M : Language α}

theorem reads_empty : Reads (empty : Regex α) 1 := by
  intro p q
  constructor
  · rintro rfl
    exact ⟨[], rfl, .nil p⟩
  · rintro ⟨w, hw, hover⟩
    obtain rfl : w = [] := hw
    exact hover.eq

theorem reads_one (f : α → Bool) : Reads (one f) (chars f) := by
  intro p q
  constructor
  · rintro ⟨c, hc, hover⟩
    exact ⟨[c], ⟨c, hc, rfl⟩, hover⟩
  · rintro ⟨w, ⟨c, hc, rfl⟩, hover⟩
    exact ⟨c, hc, hover⟩

theorem Reads.cat (hr : Reads r L) (hs : Reads s M) : Reads (cat r s) (L * M) := by
  intro p q
  constructor
  · rintro ⟨m, hrm, hsm⟩
    obtain ⟨v, hv, hpm⟩ := (hr p m).mp hrm
    obtain ⟨w, hw, hmq⟩ := (hs m q).mp hsm
    exact ⟨v ++ w, Language.append_mem_mul hv hw, hpm.trans hmq⟩
  · rintro ⟨x, hx, hover⟩
    obtain ⟨v, hv, w, hw, rfl⟩ := Language.mem_mul.mp hx
    obtain ⟨m, hpm, hmq⟩ := hover.split
    exact ⟨m, (hr p m).mpr ⟨v, hv, hpm⟩, (hs m q).mpr ⟨w, hw, hmq⟩⟩

theorem Reads.alt (hr : Reads r L) (hs : Reads s M) : Reads (alt r s) (L + M) := by
  intro p q
  constructor
  · rintro (h | h)
    · obtain ⟨w, hw, hover⟩ := (hr p q).mp h
      exact ⟨w, Or.inl hw, hover⟩
    · obtain ⟨w, hw, hover⟩ := (hs p q).mp h
      exact ⟨w, Or.inr hw, hover⟩
  · rintro ⟨w, hw | hw, hover⟩
    · exact Or.inl ((hr p q).mpr ⟨w, hw, hover⟩)
    · exact Or.inr ((hs p q).mpr ⟨w, hw, hover⟩)

theorem Reads.star (hr : Reads r L) : Reads (star r) (KStar.kstar L) := by
  intro p q
  constructor
  · intro h
    have hstar : Relation.ReflTransGen (Matches r) p q := h
    clear h
    induction hstar with
    | refl => exact ⟨[], Language.nil_mem_kstar L, .nil p⟩
    | @tail m q _ hstep ih =>
      obtain ⟨v, hv, hpm⟩ := ih
      obtain ⟨w, hw, hmq⟩ := (hr m q).mp hstep
      obtain ⟨S, rfl, hS⟩ := Language.mem_kstar.mp hv
      refine ⟨S.flatten ++ w, Language.mem_kstar.mpr ⟨S ++ [w], by simp, ?_⟩, hpm.trans hmq⟩
      intro y hy
      rcases List.mem_append.mp hy with hy | hy
      · exact hS y hy
      · exact List.mem_singleton.mp hy ▸ hw
  · rintro ⟨w, hw, hover⟩
    obtain ⟨S, rfl, hS⟩ := Language.mem_kstar.mp hw
    clear hw
    induction S generalizing p with
    | nil =>
      rw [List.flatten_nil] at hover
      exact hover.eq ▸ .refl
    | cons y S ih =>
      rw [List.flatten_cons] at hover
      obtain ⟨m, hpm, hmq⟩ := hover.split
      exact .head ((hr p m).mpr ⟨y, hS y List.mem_cons_self, hpm⟩)
        (ih m (fun z hz => hS z (List.mem_cons_of_mem y hz)) hmq)

theorem Reads.congr (hr : Reads r L) (h : ∀ w, w ∈ L ↔ w ∈ M) : Reads r M := by
  intro p q
  rw [hr p q]
  exact exists_congr fun w => and_congr_left' (h w)

theorem mem_kstar_one (f : α → Bool) (w : List α) :
    w ∈ KStar.kstar (chars f) ↔ ∀ c ∈ w, f c = true := by
  rw [Language.mem_kstar]
  constructor
  · rintro ⟨S, rfl, hS⟩ c hc
    obtain ⟨y, hy, hcy⟩ := List.mem_flatten.mp hc
    obtain ⟨d, hd, rfl⟩ := hS y hy
    rwa [List.mem_singleton.mp hcy]
  · intro hw
    refine ⟨w.map fun c => [c], ?_, fun y hy => ?_⟩
    · rw [← List.flatMap_def]
      exact (List.flatMap_singleton' w).symm
    obtain ⟨c, hc, rfl⟩ := List.mem_map.mp hy
    exact ⟨c, hw c hc, rfl⟩

/-- A character that is not followed by one of `g`, read where one of `f` is. -/
theorem reads_one_notAhead (f g : α → Bool) :
    Reads (cat (notAhead (one g)) (one f)) (chars fun c => f c && !g c) := by
  intro p q
  constructor
  · rintro ⟨m, ⟨hnone, rfl⟩, c, hc, hover⟩
    have hg : g c = false := Bool.eq_false_iff.mpr fun hg => hnone q ⟨c, hg, hover⟩
    exact ⟨[c], ⟨c, by simp [hc, hg], rfl⟩, hover⟩
  · rintro ⟨w, ⟨c, hcg, rfl⟩, hover⟩
    obtain ⟨hc, hg⟩ : f c = true ∧ g c = false := by simpa using hcg
    refine ⟨p, ⟨?_, rfl⟩, c, hc, hover⟩
    rintro m ⟨d, hd, hover'⟩
    obtain ⟨rfl, -⟩ := List.cons.inj (hover.rest.symm.trans hover'.rest)
    rw [hg] at hd
    cases hd

/-- An expression anchored at both ends is found in the words it reads. -/
theorem search_anchored (hr : Reads r L) {w : List α} :
    Search (cat bos (cat r eos)) w ↔ w ∈ L := by
  constructor
  · rintro ⟨p, q, htext, m, ⟨hfirst, rfl⟩, q', hmatch, hlast, rfl⟩
    obtain ⟨v, hv, hover⟩ := (hr p q').mp hmatch
    rw [Pos.text, hfirst, hover.rest, hlast] at htext
    simpa [← htext] using hv
  · intro hw
    exact ⟨⟨[], w⟩, ⟨w.reverse, []⟩, rfl, _, ⟨rfl, rfl⟩, _,
      (hr _ _).mpr ⟨w, hw, by simp, by simp⟩, rfl, rfl⟩

/-- One that may also start behind a word that `s` reads is found in what ends in a word of `r`,
at the start or behind one of `s`. -/
theorem search_alt_bos (hs : Reads s M) (hr : Reads r L) {w : List α} :
    Search (cat (alt bos s) (cat r eos)) w ↔
      ∃ u v, w = u ++ v ∧ (u = [] ∨ ∃ x, ∃ y ∈ M, u = x ++ y) ∧ v ∈ L := by
  constructor
  · rintro ⟨p, q, htext, m, hstart, q', hmatch, hlast, rfl⟩
    obtain ⟨v, hv, hover⟩ := (hr m q').mp hmatch
    have hend : m.rest = v := by rw [hover.rest, hlast, List.append_nil]
    rcases hstart with ⟨hfirst, rfl⟩ | hmatch'
    · rw [Pos.text, hfirst, hend] at htext
      exact ⟨[], v, htext.symm, Or.inl rfl, hv⟩
    · obtain ⟨y, hy, hover'⟩ := (hs p m).mp hmatch'
      rw [Pos.text, hover'.rest, hend, ← List.append_assoc] at htext
      exact ⟨_, v, htext.symm, Or.inr ⟨_, y, hy, rfl⟩, hv⟩
  · rintro ⟨u, v, rfl, rfl | ⟨x, y, hy, rfl⟩, hv⟩
    · exact ⟨⟨[], v⟩, ⟨v.reverse, []⟩, rfl, _, Or.inl ⟨rfl, rfl⟩, _,
        (hr _ _).mpr ⟨v, hv, by simp, by simp⟩, rfl, rfl⟩
    · refine ⟨⟨x.reverse, y ++ v⟩, ⟨v.reverse ++ (y.reverse ++ x.reverse), []⟩, by simp [Pos.text],
        ⟨y.reverse ++ x.reverse, v⟩, Or.inr ((hs _ _).mpr ⟨y, hy, rfl, rfl⟩), _,
        (hr _ _).mpr ⟨v, hv, by simp, rfl⟩, rfl, rfl⟩

end Reads

end Regex
