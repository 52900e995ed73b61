import Mathlib.Tactic

/-!
# Search trees of objects in memory

The nodes are links to objects that hold their own keys: reading a key can fail, and the descent
fails with it. A tree is used through the list of its nodes in order, which is sorted by their keys.
Balancing is left open: it may reshape a tree in any way that keeps that list.
-/

inductive SearchTree (α : Type*)
  | leaf
  | node (left : SearchTree α) (a : α) (right : SearchTree α)

namespace SearchTree

variable {α κ : Type*}

def toList : SearchTree α → List α
  | leaf => []
  | node l a r => l.toList ++ a :: r.toList

def first : SearchTree α → Option α
  | leaf => none
  | node leaf a _ => some a
  | node (node ll b lr) _ _ => (node ll b lr).first

def join : SearchTree α → SearchTree α → SearchTree α
  | leaf, r => r
  | node l a m, r => node l a (m.join r)

def erase [DecidableEq α] (x : α) : SearchTree α → SearchTree α
  | leaf => leaf
  | node l a r => if a = x then (l.erase x).join (r.erase x) else node (l.erase x) a (r.erase x)

def find [LT κ] [DecidableLT κ] (key : α → Option κ) (k : κ) : SearchTree α → Option (Option α)
  | leaf => some none
  | node l a r => (key a).bind fun ka =>
    if k < ka then l.find key k else if ka < k then r.find key k else some (some a)

def insert [LT κ] [DecidableLT κ] (key : α → Option κ) (k : κ) (x : α) :
    SearchTree α → Option (Option (SearchTree α))
  | leaf => some (some (node leaf x leaf))
  | node l a r => (key a).bind fun ka =>
    if k < ka then (l.insert key k x).map fun l' => l'.map fun l' => node l' a r
    else if ka < k then (r.insert key k x).map fun r' => r'.map fun r' => node l a r'
    else some none

/-- What is done to a tree after a change: its nodes keep their order. -/
structure Balancing where
  run : {α : Type} → SearchTree α → SearchTree α
  toList_run : ∀ {α : Type} (t : SearchTree α), (run t).toList = t.toList

attribute [simp] Balancing.toList_run

instance : Inhabited Balancing := ⟨⟨fun t => t, fun _ => rfl⟩⟩

@[simp] theorem toList_leaf : (leaf : SearchTree α).toList = [] := rfl

@[simp] theorem toList_node (l r : SearchTree α) (a : α) :
    (node l a r).toList = l.toList ++ a :: r.toList := rfl

theorem first_eq (t : SearchTree α) : t.first = t.toList.head? := by
  fun_induction first t with
  | case1 => rfl
  | case2 => rfl
  | case3 a r ll b lr ih => simp [ih]

@[simp] theorem toList_join (l r : SearchTree α) : (l.join r).toList = l.toList ++ r.toList := by
  induction l with
  | leaf => rfl
  | node l a m _ ih => simp [join, ih]

theorem toList_erase [DecidableEq α] (x : α) (t : SearchTree α) :
    (t.erase x).toList = t.toList.filter fun a => decide (a ≠ x) := by
  induction t with
  | leaf => rfl
  | node l a r ihl ihr =>
    by_cases ha : a = x
    · simp [erase, ha, ihl, ihr]
    · simp [erase, ha, ihl, ihr]

theorem toList_erase_of_nodup [DecidableEq α] (x : α) {t : SearchTree α} (h : t.toList.Nodup) :
    (t.erase x).toList = t.toList.erase x := by
  rw [toList_erase, h.erase_eq_filter]
  exact List.filter_congr fun a _ => by rw [bne, beq_eq_decide, decide_not]

def Below [LT κ] (key : α → Option κ) (a b : α) : Prop := ∃ ka ∈ key a, ∃ kb ∈ key b, ka < kb

structure Sorted [LT κ] (key : α → Option κ) (l : List α) : Prop where
  readable : ∀ a ∈ l, ∃ ka, key a = some ka
  increasing : l.Pairwise (Below key)

namespace Sorted

variable [LinearOrder κ] {key key' : α → Option κ} {l l' : List α}

theorem nil : Sorted key ([] : List α) := ⟨by simp, .nil⟩

theorem sublist (h : Sorted key l) (hsub : l'.Sublist l) : Sorted key l' :=
  ⟨fun a ha => h.readable a (hsub.subset ha), h.increasing.sublist hsub⟩

/-- Only the keys of the nodes matter. -/
theorem congr (h : Sorted key l) (hkey : ∀ a ∈ l, key' a = key a) : Sorted key' l := by
  refine ⟨fun a ha => ?_, h.increasing.imp_of_mem fun {a b} ha hb hab => ?_⟩
  · rw [hkey a ha]
    exact h.readable a ha
  · simpa only [Below, hkey a ha, hkey b hb] using hab

theorem keys_nodup (h : Sorted key l) : (l.map key).Nodup := by
  rw [List.Nodup, List.pairwise_map]
  refine h.increasing.imp fun {a b} ⟨ka, hka, kb, hkb, hlt⟩ heq => ?_
  rw [Option.mem_def] at hka hkb
  rw [hka, hkb, Option.some.injEq] at heq
  exact hlt.ne heq

theorem nodup (h : Sorted key l) : l.Nodup := h.keys_nodup.of_map

theorem insert_between {k : κ} {x : α} {l r : List α} (h : Sorted key (l ++ r))
    (hx : key x = some k) (hl : ∀ a ∈ l, ∃ ka ∈ key a, ka < k)
    (hr : ∀ b ∈ r, ∃ kb ∈ key b, k < kb) : Sorted key (l ++ x :: r) := by
  obtain ⟨hread, hincr⟩ := h
  rw [List.pairwise_append] at hincr
  refine ⟨fun a ha => ?_, List.pairwise_append.mpr ⟨hincr.1, ?_, fun a ha b hb => ?_⟩⟩
  · rw [List.mem_append, List.mem_cons] at ha
    rcases ha with ha | rfl | ha
    · exact hread a (List.mem_append_left _ ha)
    · exact ⟨k, hx⟩
    · exact hread a (List.mem_append_right _ ha)
  · refine List.pairwise_cons.mpr ⟨fun b hb => ?_, hincr.2.1⟩
    obtain ⟨kb, hkb, hlt⟩ := hr b hb
    exact ⟨k, hx, kb, hkb, hlt⟩
  · rcases List.mem_cons.mp hb with rfl | hb
    · obtain ⟨ka, hka, hlt⟩ := hl a ha
      exact ⟨ka, hka, k, hx, hlt⟩
    · exact hincr.2.2 a ha b hb

end Sorted

section Descent

variable [LinearOrder κ] {key : α → Option κ} {k : κ} {x : α} {l r t : SearchTree α} {a : α}

/-- What a descent through the root of a sorted tree goes by. -/
theorem Sorted.root (h : Sorted key (node l a r).toList) :
    ∃ ka, key a = some ka ∧ Sorted key l.toList ∧ Sorted key r.toList ∧
      (∀ b ∈ l.toList, ∃ kb ∈ key b, kb < ka) ∧ ∀ b ∈ r.toList, ∃ kb ∈ key b, ka < kb := by
  obtain ⟨ka, hka⟩ := h.readable a (by simp)
  have hincr := h.increasing
  rw [toList_node, List.pairwise_append, List.pairwise_cons] at hincr
  refine ⟨ka, hka, h.sublist (by simp), h.sublist (by simp), fun b hb => ?_, fun b hb => ?_⟩
  · obtain ⟨kb, hkb, ka', hka', hlt⟩ := hincr.2.2 b hb a List.mem_cons_self
    rw [Option.mem_def, hka, Option.some.injEq] at hka'
    exact ⟨kb, hkb, hka' ▸ hlt⟩
  · obtain ⟨ka', hka', kb, hkb, hlt⟩ := hincr.2.1.1 b hb
    rw [Option.mem_def, hka, Option.some.injEq] at hka'
    exact ⟨kb, hkb, hka' ▸ hlt⟩

theorem ne_of_lt_of_lt {b : α} {ka : κ} (hk : k < ka) (hb : ∃ kb ∈ key b, ka < kb) :
    key b ≠ some k := by
  obtain ⟨kb, hkb, hlt⟩ := hb
  rintro heq
  rw [Option.mem_def, heq, Option.some.injEq] at hkb
  exact (hk.trans hlt).ne hkb

theorem ne_of_gt_of_gt {b : α} {ka : κ} (hk : ka < k) (hb : ∃ kb ∈ key b, kb < ka) :
    key b ≠ some k := by
  obtain ⟨kb, hkb, hlt⟩ := hb
  rintro heq
  rw [Option.mem_def, heq, Option.some.injEq] at hkb
  exact (hlt.trans hk).ne hkb.symm

/-- The descent finds the node that has the key, and nothing if there is none. -/
theorem find_spec (h : Sorted key t.toList) :
    (∃ a ∈ t.toList, key a = some k ∧ t.find key k = some (some a)) ∨
      (∀ a ∈ t.toList, key a ≠ some k) ∧ t.find key k = some none := by
  induction t with
  | leaf => exact Or.inr ⟨by simp, rfl⟩
  | node l a r ihl ihr =>
    obtain ⟨ka, hka, hsl, hsr, hl, hr⟩ := h.root
    simp only [find, hka, Option.bind_some]
    rcases lt_trichotomy k ka with hlt | rfl | hgt
    · rw [if_pos hlt]
      rcases ihl hsl with ⟨b, hb, hkb, hfind⟩ | ⟨hnone, hfind⟩
      · exact Or.inl ⟨b, List.mem_append_left _ hb, hkb, hfind⟩
      · refine Or.inr ⟨fun b hb => ?_, hfind⟩
        rw [toList_node, List.mem_append, List.mem_cons] at hb
        rcases hb with hb | rfl | hb
        · exact hnone b hb
        · rw [hka, ne_eq, Option.some.injEq]
          exact hlt.ne'
        · exact ne_of_lt_of_lt hlt (hr b hb)
    · exact Or.inl ⟨a, by simp, hka, by simp⟩
    · rw [if_neg hgt.not_gt, if_pos hgt]
      rcases ihr hsr with ⟨b, hb, hkb, hfind⟩ | ⟨hnone, hfind⟩
      · exact Or.inl ⟨b, List.mem_append_right _ (List.mem_cons_of_mem _ hb), hkb, hfind⟩
      · refine Or.inr ⟨fun b hb => ?_, hfind⟩
        rw [toList_node, List.mem_append, List.mem_cons] at hb
        rcases hb with hb | rfl | hb
        · exact ne_of_gt_of_gt hgt (hl b hb)
        · rw [hka, ne_eq, Option.some.injEq]
          exact hgt.ne
        · exact hnone b hb

/-- The new node stands between those of smaller and those of greater keys. -/
theorem insert_spec (h : Sorted key t.toList) :
    (∃ a ∈ t.toList, key a = some k) ∧ t.insert key k x = some none ∨
      ∃ t' before after, t.insert key k x = some (some t') ∧ t.toList = before ++ after ∧
        t'.toList = before ++ x :: after ∧ (∀ a ∈ before, ∃ ka ∈ key a, ka < k) ∧
          ∀ b ∈ after, ∃ kb ∈ key b, k < kb := by
  induction t with
  | leaf => exact Or.inr ⟨_, [], [], rfl, rfl, rfl, by simp, by simp⟩
  | node l a r ihl ihr =>
    obtain ⟨ka, hka, hsl, hsr, hl, hr⟩ := h.root
    simp only [insert, hka, Option.bind_some]
    rcases lt_trichotomy k ka with hlt | rfl | hgt
    · rw [if_pos hlt]
      rcases ihl hsl with ⟨⟨b, hb, hkb⟩, hins⟩ | ⟨l', before, after, hins, hl₀, hl₁, hlo, hhi⟩
      · exact Or.inl ⟨⟨b, List.mem_append_left _ hb, hkb⟩, by simp [hins]⟩
      · refine Or.inr ⟨node l' a r, before, after ++ a :: r.toList, by simp [hins], by simp [hl₀],
          by simp [hl₁], hlo, fun b hb => ?_⟩
        rw [List.mem_append, List.mem_cons] at hb
        rcases hb with hb | rfl | hb
        · exact hhi b hb
        · exact ⟨ka, hka, hlt⟩
        · obtain ⟨kb, hkb, hgt⟩ := hr b hb
          exact ⟨kb, hkb, hlt.trans hgt⟩
    · exact Or.inl ⟨⟨a, by simp, hka⟩, by simp⟩
    · rw [if_neg hgt.not_gt, if_pos hgt]
      rcases ihr hsr with ⟨⟨b, hb, hkb⟩, hins⟩ | ⟨r', before, after, hins, hr₀, hr₁, hlo, hhi⟩
      · exact Or.inl ⟨⟨b, List.mem_append_right _ (List.mem_cons_of_mem _ hb), hkb⟩,
          by simp [hins]⟩
      · refine Or.inr ⟨node l a r', l.toList ++ a :: before, after, by simp [hins], by simp [hr₀],
          by simp [hr₁], fun b hb => ?_, hhi⟩
        rw [List.mem_append, List.mem_cons] at hb
        rcases hb with hb | rfl | hb
        · obtain ⟨kb, hkb, hlt⟩ := hl b hb
          exact ⟨kb, hkb, hlt.trans hgt⟩
        · exact ⟨ka, hka, hgt⟩
        · exact hlo b hb

end Descent

end SearchTree
