import Mathlib.Tactic

/-!
# Open addressing

A table of a power of two of slots, with a bit for each that is occupied. A key is looked for from
its home slot on, until it is met or a slot is free. While one slot is free every search ends, and
it ends at the key exactly if the key is there: nothing is ever taken out, so no slot between a key
and its home becomes free. A growing table inserts every entry anew.
-/

namespace OpenAddressing

def bit (used : List (BitVec 64)) (i : ℕ) : Bool :=
  ((used.getD (i >>> 6) 0 >>> (i &&& 63)) &&& 1#64) != 0#64

def setBit (used : List (BitVec 64)) (i : ℕ) : List (BitVec 64) :=
  used.modify (i >>> 6) fun w => w ||| 1#64 <<< (i &&& 63)

theorem and_one_ne_zero (w : BitVec 64) : (w &&& 1#64 != 0#64) = w.getLsbD 0 := by
  have h : w &&& 1#64 = if w.getLsbD 0 then 1#64 else 0#64 := by
    ext i hi
    by_cases hw : w.getLsbD 0 <;> by_cases hi0 : i = 0 <;> simp_all
  rw [h]
  cases w.getLsbD 0 <;> simp

theorem bit_eq (used : List (BitVec 64)) (i : ℕ) :
    bit used i = (used.getD (i / 64) 0).getLsbD (i % 64) := by
  have hword : i >>> 6 = i / 64 := Nat.shiftRight_eq_div_pow i 6
  have hpos : i &&& 63 = i % 64 := Nat.and_two_pow_sub_one_eq_mod i 6
  rw [bit, and_one_ne_zero, hword, hpos, BitVec.getLsbD_ushiftRight, Nat.add_zero]

theorem getLsbD_one_shiftLeft {n m : ℕ} (hm : m < 64) :
    (1#64 <<< n).getLsbD m = decide (n = m) := by
  rw [BitVec.getLsbD_shiftLeft, BitVec.getLsbD_one]
  by_cases h : n = m
  · simp [h, hm]
  · simp only [hm, h]
    simp
    omega

theorem bit_setBit {used : List (BitVec 64)} {i : ℕ} (hi : i < 64 * used.length) (j : ℕ) :
    bit (setBit used i) j = (decide (i = j) || bit used j) := by
  have hword : i >>> 6 = i / 64 := Nat.shiftRight_eq_div_pow i 6
  have hpos : i &&& 63 = i % 64 := Nat.and_two_pow_sub_one_eq_mod i 6
  rw [bit_eq, bit_eq, setBit, hword, hpos, List.getD_eq_getElem?_getD, List.getD_eq_getElem?_getD,
    List.getElem?_modify]
  by_cases hsame : i / 64 = j / 64
  · have hlt : j / 64 < used.length := by omega
    have hiff : i = j ↔ i % 64 = j % 64 := by omega
    simp only [if_pos hsame, List.getElem?_eq_getElem hlt, Option.map_eq_map, Option.map_some,
      Option.getD_some, BitVec.getLsbD_or]
    rw [decide_eq_decide.mpr hiff, Bool.or_comm, getLsbD_one_shiftLeft (Nat.mod_lt j (by omega))]
  · have hne : i ≠ j := fun h => hsame (congrArg (· / 64) h)
    simp [hsame, hne]

@[simp] theorem length_setBit (used : List (BitVec 64)) (i : ℕ) :
    (setBit used i).length = used.length := by
  simp [setBit]

theorem bit_replicate (n i : ℕ) : bit (List.replicate n 0#64) i = false := by
  rw [bit_eq, List.getD_eq_getElem?_getD, List.getElem?_replicate]
  split <;> simp

structure Table (ε : Type*) where
  slots : List ε
  used : List (BitVec 64)
  cap : ℕ
  count : ℕ

namespace Table

variable {ε κ : Type*} (key : ε → κ) (hash : κ → ℕ)

def mask (t : Table ε) : ℕ := t.cap - 1

def put (t : Table ε) (i : ℕ) (e : ε) : Table ε where
  slots := t.slots.set i e
  used := setBit t.used i
  cap := t.cap
  count := t.count + 1

def empty (zero : ε) (cap : ℕ) : Table ε where
  slots := List.replicate cap zero
  used := List.replicate ((cap + 63) / 64) 0#64
  cap := cap
  count := 0

def entry (t : Table ε) (i : ℕ) : Option ε := if bit t.used i then t.slots[i]? else none

/-- The table holds the entries `es`, each of its own key, and no slot between an entry and the home
of its key is free. -/
structure Holds (t : Table ε) (es : List ε) : Prop where
  pow : ∃ m, t.cap = 2 ^ m
  slots : t.slots.length = t.cap
  used : t.used.length = (t.cap + 63) / 64
  nodup : (es.map key).Nodup
  count : t.count = es.length
  mem : ∀ e, e ∈ es ↔ ∃ i < t.cap, t.entry i = some e
  inj : ∀ i j e e', i < t.cap → j < t.cap → t.entry i = some e → t.entry j = some e' →
    key e = key e' → i = j
  reach : ∀ i e, i < t.cap → t.entry i = some e → ∃ d < t.cap, i = (hash (key e) + d) % t.cap ∧
    ∀ c < d, bit t.used ((hash (key e) + c) % t.cap) = true

variable {key hash} {t : Table ε} {es : List ε}

theorem Holds.cap_pos (h : Holds key hash t es) : 0 < t.cap := by
  obtain ⟨m, hm⟩ := h.pow
  rw [hm]
  exact Nat.two_pow_pos m

theorem Holds.and_mask (h : Holds key hash t es) (n : ℕ) : n &&& t.mask = n % t.cap := by
  obtain ⟨m, hm⟩ := h.pow
  rw [mask, hm, Nat.and_two_pow_sub_one_eq_mod]

theorem entry_eq_some_iff {i : ℕ} {e : ε} :
    t.entry i = some e ↔ bit t.used i = true ∧ t.slots[i]? = some e := by
  unfold entry
  split <;> simp_all

theorem Holds.lt_cap (h : Holds key hash t es) {i : ℕ} {e : ε} (he : t.entry i = some e) :
    i < t.cap := by
  have hslot := (entry_eq_some_iff.mp he).2
  exact h.slots ▸ (List.getElem?_eq_some_iff.mp hslot).1

theorem Holds.exists_entry (h : Holds key hash t es) {i : ℕ} (hi : i < t.cap)
    (hbit : bit t.used i = true) : ∃ e, t.entry i = some e := by
  have hlt : i < t.slots.length := h.slots ▸ hi
  exact ⟨t.slots[i], entry_eq_some_iff.mpr ⟨hbit, List.getElem?_eq_getElem hlt⟩⟩

variable [DecidableEq κ]

theorem Holds.exists_free (h : Holds key hash t es) (hlt : es.length < t.cap) :
    ∃ i < t.cap, bit t.used i = false := by
  by_contra hnone
  push Not at hnone
  have hentry : ∀ i : Fin t.cap, ∃ e, t.entry i = some e := fun i =>
    h.exists_entry i.isLt (Bool.eq_true_of_not_eq_false (hnone i i.isLt))
  choose e he using hentry
  have hmaps : ∀ i ∈ Finset.univ, key (e i) ∈ (es.map key).toFinset := fun i _ => by
    rw [List.mem_toFinset]
    exact List.mem_map_of_mem ((h.mem _).mpr ⟨i, i.isLt, he i⟩)
  have hinj : Set.InjOn (fun i => key (e i)) (Finset.univ : Finset (Fin t.cap)) :=
    fun i _ j _ heq => Fin.ext (h.inj i j _ _ i.isLt j.isLt (he i) (he j) heq)
  have hcard := Finset.card_le_card_of_injOn _ hmaps hinj
  have := (es.map key).toFinset_card_le
  rw [Finset.card_univ, Fintype.card_fin] at hcard
  rw [List.length_map] at this
  omega

/-- The search of a key through so many slots, from slot `i`: where it ends, and whether it is at
the key. -/
def probe (key : ε → κ) (t : Table ε) (k : κ) : ℕ → ℕ → Option (ℕ × Bool)
  | 0, _ => none
  | fuel + 1, i =>
    if !bit t.used i then some (i, false)
    else if t.slots[i]?.map key = some k then some (i, true)
    else probe key t k fuel ((i + 1) &&& t.mask)

/-- The search from the home slot. One that has passed all slots would go round for ever. -/
def search (key : ε → κ) (hash : κ → ℕ) (t : Table ε) (k : κ) : Option (ℕ × Bool) :=
  t.probe key k t.cap (hash k &&& t.mask)

def Stops (key : ε → κ) (t : Table ε) (k : κ) (i : ℕ) : Prop :=
  bit t.used i = false ∨ t.slots[i]?.map key = some k

theorem Holds.probe_eq (h : Holds key hash t es) {k : κ} {n d c fuel : ℕ}
    (hstop : Stops key t k ((n + d) % t.cap))
    (hbefore : ∀ c < d, ¬ Stops key t k ((n + c) % t.cap)) (hc : c ≤ d) (hfuel : d < c + fuel) :
    t.probe key k fuel ((n + c) % t.cap) =
      some ((n + d) % t.cap, bit t.used ((n + d) % t.cap)) := by
  induction fuel generalizing c with
  | zero => omega
  | succ fuel ih =>
    rw [probe]
    rcases hc.eq_or_lt with rfl | hlt
    · rcases hstop with hfree | hkey
      · simp [hfree]
      · cases hbit : bit t.used ((n + c) % t.cap) <;> simp [hkey]
    · have hpass := hbefore c hlt
      rw [Stops, not_or, Bool.not_eq_false] at hpass
      rw [hpass.1, if_neg (by simp), if_neg hpass.2, h.and_mask, Nat.mod_add_mod, Nat.add_assoc]
      exact ih (by omega) (by omega)

/-- With a slot free, the search ends at the first slot from home on that is free or has the key. -/
theorem Holds.search_eq (h : Holds key hash t es) (hlt : es.length < t.cap) (k : κ) :
    ∃ d < t.cap, Stops key t k ((hash k + d) % t.cap) ∧
      (∀ c < d, ¬ Stops key t k ((hash k + c) % t.cap)) ∧
      t.search key hash k =
        some ((hash k + d) % t.cap, bit t.used ((hash k + d) % t.cap)) := by
  classical
  obtain ⟨i, hi, hfree⟩ := h.exists_free hlt
  have hround : (hash k + (i + t.cap - hash k % t.cap) % t.cap) % t.cap = i := by
    have := Nat.mod_lt (hash k) h.cap_pos
    rw [Nat.add_mod_mod, ← Nat.mod_add_mod, ← Nat.add_sub_assoc (by omega), Nat.add_sub_cancel_left,
      Nat.add_mod_right, Nat.mod_eq_of_lt hi]
  have hex : ∃ d, Stops key t k ((hash k + d) % t.cap) := ⟨_, Or.inl (hround.symm ▸ hfree)⟩
  have hle : Nat.find hex ≤ (i + t.cap - hash k % t.cap) % t.cap :=
    Nat.find_min' hex (Or.inl (hround.symm ▸ hfree))
  have hd : Nat.find hex < t.cap := hle.trans_lt (Nat.mod_lt _ h.cap_pos)
  refine ⟨Nat.find hex, hd, Nat.find_spec hex, fun c hc => Nat.find_min hex hc, ?_⟩
  rw [search, h.and_mask]
  exact h.probe_eq (c := 0) (Nat.find_spec hex) (fun c hc => Nat.find_min hex hc) (Nat.zero_le _)
    (by omega)

theorem Holds.search_of_mem (h : Holds key hash t es) (hlt : es.length < t.cap) {e : ε}
    (he : e ∈ es) : ∃ i < t.cap, t.entry i = some e ∧ t.search key hash (key e) = some (i, true) := by
  obtain ⟨i, hi, hentry⟩ := (h.mem e).mp he
  obtain ⟨hbit, hslot⟩ := entry_eq_some_iff.mp hentry
  obtain ⟨d, hd, hround, hpath⟩ := h.reach i e hi hentry
  obtain ⟨d', hd', hstop, hbefore, hsearch⟩ := h.search_eq hlt (key e)
  have hle : d' ≤ d := by
    by_contra hgt
    exact hbefore d (Nat.lt_of_not_le hgt) (Or.inr (by rw [← hround, hslot]; rfl))
  have hmod : (hash (key e) + d') % t.cap < t.cap := Nat.mod_lt _ h.cap_pos
  have hused : bit t.used ((hash (key e) + d') % t.cap) = true := by
    rcases hle.eq_or_lt with rfl | hlt
    · rwa [← hround]
    · exact hpath d' hlt
  obtain ⟨e', he'⟩ := h.exists_entry hmod hused
  have hkey : key e' = key e := by
    have hmatch := hstop.resolve_left (by simp [hused])
    rw [(entry_eq_some_iff.mp he').2] at hmatch
    exact Option.some.inj hmatch
  obtain rfl := h.inj _ _ _ _ hmod hi he' hentry hkey
  exact ⟨_, hmod, hentry, hused ▸ hsearch⟩

/-- A key that is not there is looked for up to a free slot. -/
theorem Holds.search_of_notMem (h : Holds key hash t es) (hlt : es.length < t.cap) {k : κ}
    (hk : k ∉ es.map key) : ∃ d < t.cap, bit t.used ((hash k + d) % t.cap) = false ∧
      (∀ c < d, bit t.used ((hash k + c) % t.cap) = true) ∧
      t.search key hash k = some ((hash k + d) % t.cap, false) := by
  obtain ⟨d, hd, hstop, hbefore, hsearch⟩ := h.search_eq hlt k
  have hmod : (hash k + d) % t.cap < t.cap := Nat.mod_lt _ h.cap_pos
  have hfree : bit t.used ((hash k + d) % t.cap) = false := by
    by_contra hused
    rw [Bool.not_eq_false] at hused
    obtain ⟨e, he⟩ := h.exists_entry hmod hused
    have hmatch := hstop.resolve_left (by simp [hused])
    rw [(entry_eq_some_iff.mp he).2] at hmatch
    exact hk (List.mem_map.mpr ⟨e, (h.mem e).mpr ⟨_, hmod, he⟩, Option.some.inj hmatch⟩)
  refine ⟨d, hd, hfree, fun c hc => ?_, hfree ▸ hsearch⟩
  exact Bool.eq_true_of_not_eq_false fun hunused => hbefore c hc (Or.inl hunused)

omit [DecidableEq κ] in
theorem Holds.bit_put (h : Holds key hash t es) {i : ℕ} (hi : i < t.cap) (e : ε) (j : ℕ) :
    bit (t.put i e).used j = (decide (i = j) || bit t.used j) := by
  refine bit_setBit ?_ j
  rw [h.used]
  omega

omit [DecidableEq κ] in
theorem Holds.entry_put (h : Holds key hash t es) {i : ℕ} (hi : i < t.cap) (e : ε) (j : ℕ) :
    (t.put i e).entry j = if i = j then some e else t.entry j := by
  rw [entry, h.bit_put hi, entry]
  by_cases hij : i = j
  · subst hij
    simp [put, h.slots, hi]
  · simp [put, hij]

omit [DecidableEq κ] in
theorem Holds.put (h : Holds key hash t es) {e : ε} {d : ℕ} (hnew : key e ∉ es.map key)
    (hd : d < t.cap) (hfree : bit t.used ((hash (key e) + d) % t.cap) = false)
    (hpath : ∀ c < d, bit t.used ((hash (key e) + c) % t.cap) = true) :
    Holds key hash (t.put ((hash (key e) + d) % t.cap) e) (es ++ [e]) := by
  obtain ⟨i, hround⟩ : ∃ i, i = (hash (key e) + d) % t.cap := ⟨_, rfl⟩
  rw [← hround] at hfree ⊢
  have hi : i < t.cap := hround ▸ Nat.mod_lt _ h.cap_pos
  have hempty : t.entry i = none := by simp [entry, hfree]
  have hkeys : ∀ j e', j < t.cap → t.entry j = some e' → key e' ≠ key e := fun j e' hj he' heq =>
    hnew (heq ▸ List.mem_map_of_mem ((h.mem e').mpr ⟨j, hj, he'⟩))
  have hgrows : ∀ j, bit t.used j = true → bit (t.put i e).used j = true := fun j hj => by
    rw [h.bit_put hi, hj, Bool.or_true]
  refine ⟨h.pow, ?_, ?_, ?_, ?_, fun e' => ?_, fun j j' f f' hj hj' hf hf' hkey => ?_,
    fun j f hj hf => ?_⟩
  · simp [Table.put, h.slots]
  · simp [Table.put, h.used]
  · rw [List.map_append, List.nodup_append]
    refine ⟨h.nodup, List.nodup_singleton _, fun k hk k' hk' heq => ?_⟩
    rw [List.map_singleton, List.mem_singleton] at hk'
    exact hnew (hk' ▸ heq ▸ hk)
  · simp [Table.put, h.count]
  · rw [List.mem_append, List.mem_singleton, h.mem]
    constructor
    · rintro (⟨j, hj, he'⟩ | rfl)
      · have hij : i ≠ j := by
          rintro rfl
          rw [hempty] at he'
          cases he'
        exact ⟨j, hj, by rw [h.entry_put hi, if_neg hij, he']⟩
      · exact ⟨i, hi, by rw [h.entry_put hi, if_pos rfl]⟩
    · rintro ⟨j, hj, he'⟩
      rw [h.entry_put hi] at he'
      split_ifs at he' with hij
      · exact Or.inr (Option.some.inj he').symm
      · exact Or.inl ⟨j, hj, he'⟩
  · rw [h.entry_put hi] at hf hf'
    split_ifs at hf hf' with hij hij' hij'
    · exact hij.symm.trans hij'
    · obtain rfl := Option.some.inj hf
      exact absurd hkey.symm (hkeys j' f' hj' hf')
    · obtain rfl := Option.some.inj hf'
      exact absurd hkey (hkeys j f hj hf)
    · exact h.inj j j' f f' hj hj' hf hf' hkey
  · rw [h.entry_put hi] at hf
    split_ifs at hf with hij
    · obtain rfl := Option.some.inj hf
      exact ⟨d, hd, hij ▸ hround, fun c hc => hgrows _ (hpath c hc)⟩
    · obtain ⟨d', hd', hround', hpath'⟩ := h.reach j f hj hf
      exact ⟨d', hd', hround', fun c hc => hgrows _ (hpath' c hc)⟩

def addNew (key : ε → κ) (es : List ε) (e : ε) : List ε :=
  if key e ∈ es.map key then es else es ++ [e]

def kept (key : ε → κ) (es : List ε) : List ε := es.foldl (addNew key) []

theorem kept_append_singleton (es : List ε) (e : ε) :
    kept key (es ++ [e]) = addNew key (kept key es) e := by
  simp [kept]

theorem find?_addNew (es : List ε) (e : ε) (k : κ) :
    (addNew key es e).find? (fun e => key e = k) = (es ++ [e]).find? (fun e => key e = k) := by
  unfold addNew
  split
  · next hmem =>
    obtain ⟨e', he', hkey⟩ := List.mem_map.mp hmem
    rw [List.find?_append]
    by_cases hk : key e = k
    · have hsome : (es.find? fun e => key e = k).isSome := by
        rw [List.find?_isSome]
        exact ⟨e', he', by simpa using hkey.trans hk⟩
      rw [Option.or_of_isSome hsome]
    · simp [hk]
  · rfl

theorem find?_kept (es : List ε) (k : κ) :
    (kept key es).find? (fun e => key e = k) = es.find? (fun e => key e = k) := by
  induction es using List.reverseRecOn with
  | nil => rfl
  | append_singleton es e ih =>
    rw [kept_append_singleton, find?_addNew, List.find?_append, ih, ← List.find?_append]

theorem mem_map_kept {es : List ε} {k : κ} : k ∈ (kept key es).map key ↔ k ∈ es.map key := by
  have h : ∀ l : List ε, k ∈ l.map key ↔ (l.find? fun e => key e = k).isSome := fun l => by
    simp
  rw [h, h, find?_kept]

theorem Holds.count_kept (h : Holds key hash t (kept key es)) :
    t.count = (es.map key).toFinset.card := by
  have hsame : (es.map key).toFinset = ((kept key es).map key).toFinset := by
    ext k
    rw [List.mem_toFinset, List.mem_toFinset, mem_map_kept]
  rw [hsame, List.toFinset_card_of_nodup h.nodup, List.length_map, h.count]

def insert (key : ε → κ) (hash : κ → ℕ) (t : Table ε) (e : ε) : Option (Table ε) :=
  match t.search key hash (key e) with
  | none => none
  | some (_, true) => some t
  | some (i, false) => some (t.put i e)

theorem Holds.insert (h : Holds key hash t es) (hlt : es.length < t.cap) (e : ε) :
    ∃ t', t.insert key hash e = some t' ∧ Holds key hash t' (addNew key es e) ∧ t'.cap = t.cap := by
  unfold addNew
  split
  · next hmem =>
    obtain ⟨e', he', hkey⟩ := List.mem_map.mp hmem
    obtain ⟨i, -, -, hsearch⟩ := h.search_of_mem hlt he'
    exact ⟨t, by rw [Table.insert, ← hkey, hsearch], h, rfl⟩
  · next hnew =>
    obtain ⟨d, hd, hfree, hpath, hsearch⟩ := h.search_of_notMem hlt hnew
    exact ⟨_, by rw [Table.insert, hsearch], h.put hnew hd hfree hpath, rfl⟩

omit [DecidableEq κ] in
theorem holds_empty (zero : ε) {cap m : ℕ} (hcap : cap = 2 ^ m) :
    Holds key hash (empty zero cap) [] := by
  have hentry : ∀ i, (empty zero cap).entry i = none := fun i => by
    simp [entry, empty, bit_replicate]
  exact ⟨⟨m, hcap⟩, by simp [empty], by simp [empty], List.nodup_nil, rfl, by simp [hentry],
    fun _ _ _ _ _ _ h => by simp [hentry] at h, fun _ _ _ h => by simp [hentry] at h⟩

omit [DecidableEq κ] in
theorem Holds.congr {es' : List ε} (h : Holds key hash t es) (hnodup : (es'.map key).Nodup)
    (hmem : ∀ e, e ∈ es' ↔ e ∈ es) : Holds key hash t es' := by
  have hperm : es'.Perm es :=
    (List.perm_ext_iff_of_nodup (List.Nodup.of_map key hnodup) (List.Nodup.of_map key h.nodup)).mpr
      hmem
  exact ⟨h.pow, h.slots, h.used, hnodup, h.count.trans hperm.length_eq.symm,
    fun e => (hmem e).trans (h.mem e), h.inj, h.reach⟩

/-- Entries with keys of their own are inserted one after the other. -/
theorem Holds.foldlM_insert (h : Holds key hash t es) {new : List ε}
    (hnodup : ((es ++ new).map key).Nodup) (hfits : es.length + new.length ≤ t.cap) :
    ∃ t', new.foldlM (Table.insert key hash) t = some t' ∧ Holds key hash t' (es ++ new) ∧
      t'.cap = t.cap := by
  induction new generalizing t es with
  | nil => exact ⟨t, rfl, by rwa [List.append_nil], rfl⟩
  | cons e new ih =>
    rw [List.length_cons] at hfits
    have hfresh : key e ∉ es.map key := by
      rw [List.map_append, List.nodup_append] at hnodup
      exact fun hmem => hnodup.2.2 _ hmem _ List.mem_cons_self rfl
    obtain ⟨t₁, hinsert, h₁, hcap⟩ := h.insert (by omega) e
    rw [addNew, if_neg hfresh] at h₁
    have hassoc : es ++ e :: new = es ++ [e] ++ new := by simp
    rw [hassoc] at hnodup ⊢
    obtain ⟨t', hfold, h', hcap'⟩ := ih h₁ hnodup (by simp; omega)
    exact ⟨t', by rw [List.foldlM_cons, hinsert]; exact hfold, h', hcap'.trans hcap⟩

def rehash (key : ε → κ) (hash : κ → ℕ) (t : Table ε) (zero : ε) (cap : ℕ) : Option (Table ε) :=
  ((List.range t.cap).filterMap t.entry).foldlM (Table.insert key hash) (empty zero cap)

theorem Holds.rehash (h : Holds key hash t es) (zero : ε) {cap m : ℕ} (hcap : cap = 2 ^ m)
    (hfits : es.length ≤ cap) : ∃ t', t.rehash key hash zero cap = some t' ∧
      Holds key hash t' es ∧ t'.cap = cap := by
  have hmem : ∀ e, e ∈ es ↔ e ∈ (List.range t.cap).filterMap t.entry := fun e => by
    simp [h.mem]
  have hnodup : (((List.range t.cap).filterMap t.entry).map key).Nodup := by
    rw [List.map_filterMap]
    refine List.nodup_range.filterMap fun i j k hi hj => ?_
    obtain ⟨e, he, rfl⟩ := Option.map_eq_some_iff.mp hi
    obtain ⟨e', he', hkey⟩ := Option.map_eq_some_iff.mp hj
    exact h.inj i j e e' (h.lt_cap he) (h.lt_cap he') he he' hkey.symm
  have hlength := (List.perm_ext_iff_of_nodup (List.Nodup.of_map key h.nodup)
    (List.Nodup.of_map key hnodup)).mpr hmem |>.length_eq
  obtain ⟨t', hfold, h', hcap'⟩ := @Holds.foldlM_insert _ _ key hash (empty zero cap) [] _
    (holds_empty zero hcap) _ hnodup (by simpa [empty] using hlength ▸ hfits)
  exact ⟨t', hfold, h'.congr h.nodup hmem, hcap'⟩

end Table

end OpenAddressing
