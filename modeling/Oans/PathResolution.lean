import Mathlib.Tactic

/-!
# Path resolution

A path is a string of bytes; its components are the runs between slashes. A directory tree answers
lookups of one name in one node, and some nodes are links to another path. `Resolves` follows a
list of components from a node. Links may lead in circles, so a resolution is a relation: it has
at most one result, and where the links never end it has none.
-/

namespace PathResolution

abbrev Path := List UInt8

def slash : UInt8 := 47

def componentsFrom (cur : Path) : Path → List Path
  | [] => if cur = [] then [] else [cur]
  | c :: s =>
    if c = slash then (if cur = [] then [] else [cur]) ++ componentsFrom [] s
    else componentsFrom (cur ++ [c]) s

def components (s : Path) : List Path := componentsFrom [] s

@[simp] theorem components_nil : components [] = [] := rfl

@[simp] theorem components_slash_cons (s : Path) : components (slash :: s) = components s := by
  simp [components, componentsFrom]

theorem componentsFrom_append_slash (cur s t : Path) :
    componentsFrom cur (s ++ slash :: t) = componentsFrom cur s ++ components t := by
  induction s generalizing cur with
  | nil => simp [componentsFrom, components]
  | cons c s ih =>
    rw [List.cons_append, componentsFrom, componentsFrom]
    by_cases hc : c = slash
    · rw [if_pos hc, if_pos hc, ih, List.append_assoc]
    · rw [if_neg hc, if_neg hc, ih]

theorem components_append_slash (s t : Path) :
    components (s ++ slash :: t) = components s ++ components t :=
  componentsFrom_append_slash [] s t

theorem componentsFrom_of_notMem {cur s : Path} (h : slash ∉ s) :
    componentsFrom cur s = if cur ++ s = [] then [] else [cur ++ s] := by
  induction s generalizing cur with
  | nil => simp [componentsFrom]
  | cons c s ih =>
    rw [List.mem_cons, not_or] at h
    rw [componentsFrom, if_neg (Ne.symm h.1), ih h.2]
    simp

theorem components_of_notMem {s : Path} (h : slash ∉ s) (hs : s ≠ []) : components s = [s] := by
  rw [components, componentsFrom_of_notMem h, List.nil_append, if_neg hs]

theorem componentsFrom_append_of_notMem {cur s t : Path} (h : slash ∉ s) :
    componentsFrom cur (s ++ t) = componentsFrom (cur ++ s) t := by
  induction s generalizing cur with
  | nil => simp
  | cons c s ih =>
    rw [List.mem_cons, not_or] at h
    rw [List.cons_append, componentsFrom, if_neg (Ne.symm h.1), ih h.2]
    simp

/-- What has been read of a component stays the beginning of the first one. -/
theorem componentsFrom_eq_cons {cur : Path} (hcur : cur ≠ []) (s : Path) :
    ∃ c cs, componentsFrom cur s = c :: cs ∧ cur <+: c := by
  induction s generalizing cur with
  | nil => exact ⟨cur, [], by simp [componentsFrom, hcur], List.prefix_rfl⟩
  | cons a s ih =>
    rw [componentsFrom]
    by_cases ha : a = slash
    · exact ⟨cur, componentsFrom [] s, by simp [ha, hcur], List.prefix_rfl⟩
    · obtain ⟨c, cs, hcs, hpre⟩ := @ih (cur ++ [a]) (by simp)
      exact ⟨c, cs, by rw [if_neg ha, hcs], (List.prefix_append cur [a]).trans hpre⟩

/-- A path that starts with `n` bytes none of which is a slash has a first component as long. -/
theorem components_eq_cons_of_take {s : Path} {n : ℕ} (hn : 0 < n) (hlen : n ≤ s.length)
    (h : slash ∉ s.take n) : ∃ c cs, components s = c :: cs ∧ n ≤ c.length := by
  have hne : s.take n ≠ [] := by
    rw [← List.length_pos_iff, List.length_take]
    omega
  have hsplit : components s = componentsFrom (s.take n) (s.drop n) := by
    rw [← List.nil_append (s.take n), ← componentsFrom_append_of_notMem h,
      List.take_append_drop, components]
  obtain ⟨c, cs, hcs, hpre⟩ := componentsFrom_eq_cons hne (s.drop n)
  refine ⟨c, cs, hsplit.trans hcs, ?_⟩
  have := hpre.length_le
  rw [List.length_take] at this
  omega

theorem components_dropWhile_slash (s : Path) :
    components (s.dropWhile (· = slash)) = components s := by
  induction s with
  | nil => rfl
  | cons c s ih =>
    by_cases hc : c = slash
    · subst hc
      rw [List.dropWhile_cons_of_pos (by simp), ih, components_slash_cons]
    · rw [List.dropWhile_cons_of_neg (by simpa using hc)]

theorem length_le_of_mem_componentsFrom {cur s c : Path} (h : c ∈ componentsFrom cur s) :
    c.length ≤ cur.length + s.length := by
  induction s generalizing cur with
  | nil =>
    by_cases hcur : cur = []
    · simp [componentsFrom, hcur] at h
    · simp only [componentsFrom, if_neg hcur, List.mem_singleton] at h
      simp [h]
  | cons a s ih =>
    rw [componentsFrom] at h
    by_cases ha : a = slash
    · rw [if_pos ha, List.mem_append] at h
      rcases h with h | h
      · by_cases hcur : cur = []
        · simp [hcur] at h
        · rw [if_neg hcur, List.mem_singleton] at h
          simp [h]
      · have := ih h
        simp only [List.length_nil, List.length_cons] at this ⊢
        omega
    · rw [if_neg ha] at h
      have := ih h
      simp only [List.length_append, List.length_cons, List.length_nil] at this ⊢
      omega

theorem length_le_of_mem_components {s c : Path} (h : c ∈ components s) : c.length ≤ s.length := by
  simpa using length_le_of_mem_componentsFrom h

structure DirTree (ν ε : Type*) where
  root : ν
  /-- What `name` is in a node: where it leads, or why it leads nowhere. -/
  lookup : ν → Path → Except ε ν
  /-- The path a link leads to, for the nodes that are links. -/
  target : ν → Option Path

variable {ν ε : Type*} (T : DirTree ν ε)

def DirTree.origin (d : ν) (path : Path) : ν := if path.head? = some slash then T.root else d

/-- Following components from a node. A link is followed, except one at the end where `follow`
says not to. -/
inductive Resolves : ν → List Path → Bool → Except ε ν → Prop
  | nil {d : ν} {follow : Bool} : Resolves d [] follow (.ok d)
  | missing {d : ν} {c : Path} {cs : List Path} {follow : Bool} {e : ε}
      (hlookup : T.lookup d c = .error e) : Resolves d (c :: cs) follow (.error e)
  | entry {d n : ν} {c : Path} {cs : List Path} {follow : Bool} {r : Except ε ν}
      (hlookup : T.lookup d c = .ok n) (hstay : T.target n = none ∨ cs = [] ∧ follow = false)
      (tail : Resolves n cs follow r) : Resolves d (c :: cs) follow r
  | link {d n m : ν} {c t : Path} {cs : List Path} {follow : Bool} {r : Except ε ν}
      (hlookup : T.lookup d c = .ok n) (htarget : T.target n = some t)
      (hfollow : ¬ (cs = [] ∧ follow = false))
      (inner : Resolves (T.origin d t) (components t) true (.ok m))
      (tail : Resolves m cs follow r) : Resolves d (c :: cs) follow r
  | broken {d n : ν} {c t : Path} {cs : List Path} {follow : Bool} {e : ε}
      (hlookup : T.lookup d c = .ok n) (htarget : T.target n = some t)
      (hfollow : ¬ (cs = [] ∧ follow = false))
      (inner : Resolves (T.origin d t) (components t) true (.error e)) :
      Resolves d (c :: cs) follow (.error e)

variable {T}

theorem Resolves.unique {d : ν} {cs : List Path} {follow : Bool} {r r' : Except ε ν}
    (h : Resolves T d cs follow r) (h' : Resolves T d cs follow r') : r = r' := by
  induction h generalizing r' with
  | nil => cases h'; rfl
  | missing hlookup => cases h' <;> simp_all
  | entry hlookup hstay _ ih =>
    cases h' with
    | missing hlookup' => simp_all
    | entry hlookup' _ tail' =>
      obtain rfl := Except.ok.inj (hlookup.symm.trans hlookup')
      exact ih tail'
    | link hlookup' htarget' hfollow' =>
      obtain rfl := Except.ok.inj (hlookup.symm.trans hlookup')
      exact absurd (hstay.resolve_left (by simp [htarget'])) hfollow'
    | broken hlookup' htarget' hfollow' =>
      obtain rfl := Except.ok.inj (hlookup.symm.trans hlookup')
      exact absurd (hstay.resolve_left (by simp [htarget'])) hfollow'
  | link hlookup htarget hfollow _ _ ihinner ih =>
    cases h' with
    | missing hlookup' => simp_all
    | entry hlookup' hstay' =>
      obtain rfl := Except.ok.inj (hlookup.symm.trans hlookup')
      exact absurd (hstay'.resolve_left (by simp [htarget])) hfollow
    | link hlookup' htarget' _ inner' tail' =>
      obtain rfl := Except.ok.inj (hlookup.symm.trans hlookup')
      obtain rfl := Option.some.inj (htarget.symm.trans htarget')
      obtain rfl := Except.ok.inj (ihinner inner')
      exact ih tail'
    | broken hlookup' htarget' _ inner' =>
      obtain rfl := Except.ok.inj (hlookup.symm.trans hlookup')
      obtain rfl := Option.some.inj (htarget.symm.trans htarget')
      cases ihinner inner'
  | broken hlookup htarget hfollow _ ihinner =>
    cases h' with
    | missing hlookup' => simp_all
    | entry hlookup' hstay' =>
      obtain rfl := Except.ok.inj (hlookup.symm.trans hlookup')
      exact absurd (hstay'.resolve_left (by simp [htarget])) hfollow
    | link hlookup' htarget' _ inner' =>
      obtain rfl := Except.ok.inj (hlookup.symm.trans hlookup')
      obtain rfl := Option.some.inj (htarget.symm.trans htarget')
      cases ihinner inner'
    | broken hlookup' htarget' _ inner' =>
      obtain rfl := Except.ok.inj (hlookup.symm.trans hlookup')
      obtain rfl := Option.some.inj (htarget.symm.trans htarget')
      exact ihinner inner'

/-- Resolving in two parts: the first part follows its last link, since more comes after it. -/
theorem resolves_append {d : ν} {cs ds : List Path} {follow : Bool} {r : Except ε ν}
    (hds : ds ≠ []) : Resolves T d (cs ++ ds) follow r ↔
      (∃ m, Resolves T d cs true (.ok m) ∧ Resolves T m ds follow r) ∨
        ∃ e, Resolves T d cs true (.error e) ∧ r = .error e := by
  induction cs generalizing d with
  | nil =>
    constructor
    · exact fun h => Or.inl ⟨d, .nil, h⟩
    · rintro (⟨m, hnil, h⟩ | ⟨e, hnil, -⟩)
      · cases hnil
        exact h
      · cases hnil
  | cons c cs ih =>
    have hne : ¬ (cs ++ ds = [] ∧ follow = false) := by simp [hds]
    have htrue : ¬ (cs = [] ∧ true = false) := by simp
    rw [List.cons_append]
    constructor
    · intro h
      cases h with
      | missing hlookup => exact Or.inr ⟨_, .missing hlookup, rfl⟩
      | entry hlookup hstay tail =>
        have hnone := hstay.resolve_right hne
        rcases ih.mp tail with ⟨m, hm, hr⟩ | ⟨e, he, hr⟩
        · exact Or.inl ⟨m, .entry hlookup (Or.inl hnone) hm, hr⟩
        · exact Or.inr ⟨e, .entry hlookup (Or.inl hnone) he, hr⟩
      | link hlookup htarget _ inner tail =>
        rcases ih.mp tail with ⟨m, hm, hr⟩ | ⟨e, he, hr⟩
        · exact Or.inl ⟨m, .link hlookup htarget htrue inner hm, hr⟩
        · exact Or.inr ⟨e, .link hlookup htarget htrue inner he, hr⟩
      | broken hlookup htarget _ inner =>
        exact Or.inr ⟨_, .broken hlookup htarget htrue inner, rfl⟩
    · rintro (⟨m, h, hr⟩ | ⟨e, h, rfl⟩)
      · cases h with
        | entry hlookup hstay tail =>
          exact .entry hlookup (Or.inl (hstay.resolve_right htrue))
            (ih.mpr (Or.inl ⟨m, tail, hr⟩))
        | link hlookup htarget _ inner tail =>
          exact .link hlookup htarget hne inner (ih.mpr (Or.inl ⟨m, tail, hr⟩))
      · cases h with
        | missing hlookup => exact .missing hlookup
        | entry hlookup hstay tail =>
          exact .entry hlookup (Or.inl (hstay.resolve_right htrue))
            (ih.mpr (Or.inr ⟨e, tail, rfl⟩))
        | link hlookup htarget _ inner tail =>
          exact .link hlookup htarget hne inner (ih.mpr (Or.inr ⟨e, tail, rfl⟩))
        | broken hlookup htarget _ inner => exact .broken hlookup htarget hne inner

theorem resolves_cons_of_error {d : ν} {c : Path} {cs : List Path} {follow : Bool} {e : ε}
    {r : Except ε ν} (hlookup : T.lookup d c = .error e) :
    Resolves T d (c :: cs) follow r ↔ r = .error e := by
  constructor
  · exact fun h => h.unique (.missing hlookup)
  · rintro rfl
    exact .missing hlookup

noncomputable def answer {α : Type*} (R : α → Prop) : Option α :=
  open Classical in if h : ∃ a, R a then some h.choose else none

theorem answer_eq_some_iff {α : Type*} {R : α → Prop} (hunique : ∀ a b, R a → R b → a = b)
    (a : α) : answer R = some a ↔ R a := by
  unfold answer
  constructor
  · intro h
    split at h
    · next hex => exact Option.some.inj h ▸ hex.choose_spec
    · cases h
  · intro h
    have hex : ∃ a, R a := ⟨a, h⟩
    rw [dif_pos hex, hunique _ _ hex.choose_spec h]

end PathResolution
