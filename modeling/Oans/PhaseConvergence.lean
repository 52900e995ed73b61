import Oans.DedupeGroup

/-!
# Which groups one dedupe phase brings together

Every window puts the elected target first, so the new members of a group come together when the
target can be used. When it cannot, each window gathers its members where its own first usable
one is, and they come together only if one window holds them all.
-/

namespace Oans

open IntervalCut Gather

variable {δ : Type*} [DecidableEq δ] {σ : Type*} {t t' : FilesTable δ} {k : δ × ℕ} {r f : FileRow δ}
  {firstSeq : ℕ} {opens : ℤ → MemberState}

structure Trimmed (opens : ℤ → MemberState) (t t' : FilesTable δ) : Prop where
  sub : ∀ f ∈ t'.rows, f ∈ t.rows
  kept : ∀ f ∈ t.rows, opens f.id ≠ .deleted → f ∈ t'.rows

namespace Trimmed

omit [DecidableEq δ] in
theorem refl (opens : ℤ → MemberState) (t : FilesTable δ) : Trimmed opens t t :=
  ⟨fun _ => id, fun _ hf _ => hf⟩

theorem mem_members (h : Trimmed opens t t') (hf : f ∈ t'.members k) : f ∈ t.members k := by
  obtain ⟨hrow, hrest⟩ := t'.mem_members.mp hf
  exact t.mem_members.mpr ⟨h.sub f hrow, hrest⟩

theorem members_of_usable (h : Trimmed opens t t') (hf : f ∈ t.members k)
    (hu : isUsable opens f.id = true) : f ∈ t'.members k := by
  obtain ⟨hrow, hrest⟩ := t.mem_members.mp hf
  refine t'.mem_members.mpr ⟨h.kept f hrow ?_, hrest⟩
  rw [isUsable, decide_eq_true_eq] at hu
  rw [hu]
  exact MemberState.noConfusion

theorem elected (h : Trimmed opens t t') (hr : t.IsElected k r) (hu : isUsable opens r.id = true) :
    t'.IsElected k r :=
  ⟨h.members_of_usable hr.1 hu, fun m hm => hr.2 m (h.mem_members hm)⟩

omit [DecidableEq δ] in
theorem dedupeExtentList (h : Trimmed opens t t') (g : List ℤ) (storage : ℤ → σ) :
    Trimmed opens t (Oans.dedupeExtentList opens g ⟨t', storage, none⟩).table where
  sub f hf := h.sub f ((mem_dedupeExtentList_table opens g _).mp hf).1
  kept f hf hne := (mem_dedupeExtentList_table opens g _).mpr ⟨h.kept f hf hne, fun hd => hne hd.2⟩

omit [DecidableEq δ] in
theorem removeFile (h : Trimmed opens t t') {e : ℤ} (he : opens e = .deleted) :
    Trimmed opens t (t'.removeFile e) where
  sub f hf := h.sub f (FilesTable.mem_removeFile.mp hf).1
  kept f hf hne := FilesTable.mem_removeFile.mpr ⟨h.kept f hf hne, fun hid => hne (hid ▸ he)⟩

end Trimmed

/-- A loaded group that holds a member of `k` is the group `k` as the table is now. -/
theorem eq_loadedGroup_of_mem (htrim : Trimmed opens t t') {recs : List Filerec} {w : Window ℕ}
    {g : List ℤ} (hg : g ∈ pushedGroups (loadedTree t' recs w firstSeq)) (hf : f ∈ t.members k)
    (hfg : f.id ∈ g) : g = loadedGroup t' recs w firstSeq k := by
  obtain ⟨-, k', rfl⟩ := mem_pushedGroups.mp hg
  obtain ⟨r, hr, -, -, f', hf', -, hid⟩ := mem_loadedGroup.mp hfg
  have hsame : f' = f := t.eq_of_id_eq (t.mem_members.mp (htrim.mem_members hf')).1
    (t.mem_members.mp hf).1 hid
  have hkey := (t.mem_members.mp hf).2.2
  rw [← hsame, (t'.mem_members.mp hf').2.2] at hkey
  rw [Option.some.inj hkey]

/-- What every run of a phase keeps: the table is only trimmed, and no group lists a file twice. -/
structure Tidy (opens : ℤ → MemberState) (t : FilesTable δ) (s : WholeFilePhase δ σ) : Prop where
  trimmed : Trimmed opens t s.table
  nodup : ∀ b ∈ s.inflight, ∀ g ∈ b, g.Nodup

theorem Tidy.step {s s' : WholeFilePhase δ σ} (h : Tidy opens t s)
    (hstep : PhaseStep opens firstSeq s s') : Tidy opens t s' := by
  obtain ⟨trimmed, nodup⟩ := h
  cases hstep with
  | load recs w ws =>
    refine ⟨trimmed, fun b hb g hg => ?_⟩
    rcases List.mem_append.mp hb with hb | hb
    · exact nodup b hb g hg
    · obtain rfl := List.mem_singleton.mp hb
      obtain ⟨-, k, rfl⟩ := mem_pushedGroups.mp hg
      exact loadedGroup_nodup _ _ _ _ _
  | drop b g e hb hg he hopen => exact ⟨trimmed.removeFile hopen, nodup⟩
  | run before after gs gs' g hin =>
    refine ⟨trimmed.dedupeExtentList g s.storage, fun b hb x hx => ?_⟩
    rw [hin] at nodup
    rcases List.mem_append.mp hb with hb | hb
    · exact nodup b (List.mem_append_left _ hb) x hx
    · rcases List.mem_cons.mp hb with rfl | hb
      · refine nodup (gs ++ g :: gs') (by simp) x ?_
        rcases List.mem_append.mp hx with hx | hx
        · exact List.mem_append_left _ hx
        · exact List.mem_append_right _ (List.mem_cons_of_mem _ hx)
      · exact nodup b (List.mem_append_right _ (List.mem_cons_of_mem _ hb)) x hx
  | reap rest hin =>
    rw [hin] at nodup
    exact ⟨trimmed, fun b hb => nodup b (List.mem_cons_of_mem _ hb)⟩

def WholeFilePhase.queued (s : WholeFilePhase δ σ) : List (List ℤ) := s.inflight.flatten

/-- A step seen by what it does to the groups in flight: it loads a window, gathers one group, or
moves nothing. -/
theorem PhaseStep.cases_queued {s s' : WholeFilePhase δ σ} (htidy : Tidy opens t s)
    (hstep : PhaseStep opens firstSeq s s') :
    (∃ recs w, s.left = w :: s'.left ∧ s'.storage = s.storage ∧
      s'.queued = s.queued ++ pushedGroups (loadedTree s.table recs w firstSeq)) ∨
    (s'.left = s.left ∧ ∃ gs g gs', s.queued = gs ++ g :: gs' ∧ s'.queued = gs ++ gs' ∧
      s'.storage = gather (isUsable opens) g s.storage) ∨
    (s'.left = s.left ∧ s'.storage = s.storage ∧ s'.queued = s.queued) := by
  cases hstep with
  | load recs w ws hleft =>
    exact Or.inl ⟨recs, w, hleft, rfl, by simp [WholeFilePhase.queued]⟩
  | drop b g e hb => exact Or.inr (Or.inr ⟨rfl, rfl, rfl⟩)
  | run before after gs gs' g hin =>
    have hnodup : g.Nodup := htidy.nodup (gs ++ g :: gs') (by simp [hin]) g (by simp)
    refine Or.inr (Or.inl ⟨rfl, before.flatten ++ gs, g, gs' ++ after.flatten, ?_, ?_,
      dedupeExtentList_storage opens g hnodup _ rfl⟩)
    · simp [WholeFilePhase.queued, hin]
    · simp [WholeFilePhase.queued]
  | reap rest hin => exact Or.inr (Or.inr ⟨rfl, rfl, by simp [WholeFilePhase.queued, hin]⟩)

def WholeFilePhase.start (t : FilesTable δ) (storage : ℤ → σ) (ws : List (Window ℕ)) :
    WholeFilePhase δ σ := ⟨t, storage, ws, []⟩

omit [DecidableEq δ] in
theorem Tidy.start (opens : ℤ → MemberState) (t : FilesTable δ) (storage : ℤ → σ)
    (ws : List (Window ℕ)) : Tidy opens t (WholeFilePhase.start t storage ws) :=
  ⟨Trimmed.refl opens t, by simp [WholeFilePhase.start]⟩

def PhaseRun (opens : ℤ → MemberState) (t : FilesTable δ) (storage : ℤ → σ) (firstSeq : ℕ)
    (ws : List (Window ℕ)) (s : WholeFilePhase δ σ) : Prop :=
  Relation.ReflTransGen (PhaseStep opens firstSeq) (WholeFilePhase.start t storage ws) s

/-- An invariant that every step of a tidy phase keeps holds in every state of a run. -/
theorem PhaseRun.invariant {storage : ℤ → σ} {ws : List (Window ℕ)} {s : WholeFilePhase δ σ}
    (hrun : PhaseRun opens t storage firstSeq ws s) (P : WholeFilePhase δ σ → Prop)
    (hstart : P (WholeFilePhase.start t storage ws))
    (hstep : ∀ u v, Tidy opens t u → PhaseStep opens firstSeq u v → P u → P v) :
    Tidy opens t s ∧ P s := by
  induction hrun with
  | refl => exact ⟨Tidy.start opens t storage ws, hstart⟩
  | tail _ hs ih => exact ⟨ih.1.step hs, hstep _ _ ih.1 hs ih.2⟩

def FilesTable.UsableNew (t : FilesTable δ) (k : δ × ℕ) (firstSeq : ℕ) (usable : ℤ → Bool)
    (f : FileRow δ) : Prop :=
  f ∈ t.members k ∧ firstSeq < f.dedupeSeq ∧ usable f.id = true

section Elected

/-- With a target that can be used, every usable member that is due waits for its window, is in
flight behind the target, or is with it. -/
structure Converging (opens : ℤ → MemberState) (t : FilesTable δ) (k : δ × ℕ) (r : FileRow δ)
    (firstSeq : ℕ) (due : FileRow δ → Prop) (s : WholeFilePhase δ σ) : Prop where
  left : ∀ w ∈ s.left, firstSeq ≤ w.lo
  leads : ∀ g ∈ s.queued, ∀ f ∈ t.members k, f.id ∈ g → g.head? = some r.id
  placed : ∀ f ∈ t.members k, isUsable opens f.id = true → due f →
    (∃ w ∈ s.left, w.Contains (dueAt firstSeq r f)) ∨ (∃ g ∈ s.queued, f.id ∈ g) ∨
      s.storage f.id = s.storage r.id

theorem Converging.target_stays {due : FileRow δ → Prop} {s : WholeFilePhase δ σ} {g : List ℤ}
    (h : Converging opens t k r firstSeq due s) (hr : r ∈ t.members k)
    (hu : isUsable opens r.id = true) (hg : g ∈ s.queued) :
    gather (isUsable opens) g s.storage r.id = s.storage r.id := by
  by_cases hrg : r.id ∈ g
  · exact gather_find (find?_of_head? (h.leads g hg r hr hrg) hu)
  · exact gather_of_not_mem fun hx => hrg hx.1

theorem Converging.step {due : FileRow δ → Prop} {s s' : WholeFilePhase δ σ}
    (hr : t.IsElected k r) (hu : isUsable opens r.id = true) (htidy : Tidy opens t s)
    (hstep : PhaseStep opens firstSeq s s') (h : Converging opens t k r firstSeq due s) :
    Converging opens t k r firstSeq due s' := by
  have htgt := fun g hg => h.target_stays hr.1 hu (g := g) hg
  obtain ⟨left, leads, placed⟩ := h
  rcases hstep.cases_queued htidy with ⟨recs, w, hleft, hstorage, hqueued⟩ |
    ⟨hleft, gs, g, gs', hq, hq', hstorage⟩ | ⟨hleft, hstorage, hqueued⟩
  · have htarget := s.table.target_eq_some_iff.mpr (htidy.trimmed.elected hr hu)
    rw [hleft] at left placed
    refine ⟨fun v hv => left v (List.mem_cons_of_mem _ hv), fun g hg f hf hfg => ?_,
      fun f hf huf hdue => ?_⟩
    · rw [hqueued] at hg
      rcases List.mem_append.mp hg with hg | hg
      · exact leads g hg f hf hfg
      · have heq := eq_loadedGroup_of_mem htidy.trimmed hg hf hfg
        rw [heq] at hfg ⊢
        exact head?_loadedGroup htarget hfg
    · rw [hqueued, hstorage]
      rcases placed f hf huf hdue with ⟨v, hv, hc⟩ | ⟨g, hg, hfg⟩ | hsame
      · rcases List.mem_cons.mp hv with rfl | hv
        · by_cases hne : f = r
          · exact Or.inr (Or.inr (by rw [hne]))
          · have hmem : f.id ∈ loadedGroup s.table recs v firstSeq k :=
              (mem_loadedGroup_iff_due (left v List.mem_cons_self) htarget
                (htidy.trimmed.members_of_usable hf huf) hne).mpr hc
            exact Or.inr (Or.inl ⟨_, List.mem_append_right _
              (mem_pushedGroups.mpr ⟨List.ne_nil_of_mem hmem, k, rfl⟩), hmem⟩)
        · exact Or.inl ⟨v, hv, hc⟩
      · exact Or.inr (Or.inl ⟨g, List.mem_append_left _ hg, hfg⟩)
      · exact Or.inr (Or.inr hsame)
  · have hgq : g ∈ s.queued := by simp [hq]
    have hstay : s'.storage r.id = s.storage r.id := by rw [hstorage, htgt g hgq]
    refine ⟨hleft ▸ left, fun x hx => leads x ?_, fun f hf huf hdue => ?_⟩
    · rw [hq'] at hx
      rw [hq]
      rcases List.mem_append.mp hx with hx | hx
      · exact List.mem_append_left _ hx
      · exact List.mem_append_right _ (List.mem_cons_of_mem _ hx)
    · rw [hleft, hstay]
      by_cases hfg : f.id ∈ g
      · refine Or.inr (Or.inr ?_)
        rw [hstorage]
        exact gather_of_find (find?_of_head? (leads g hgq f hf hfg) hu) hfg huf
      · rcases placed f hf huf hdue with hw | ⟨x, hx, hfx⟩ | hsame
        · exact Or.inl hw
        · rw [hq] at hx
          refine Or.inr (Or.inl ⟨x, ?_, hfx⟩)
          rw [hq']
          rcases List.mem_append.mp hx with hx | hx
          · exact List.mem_append_left _ hx
          · rcases List.mem_cons.mp hx with rfl | hx
            · exact absurd hfx hfg
            · exact List.mem_append_right _ hx
        · refine Or.inr (Or.inr ?_)
          rw [hstorage, gather_of_not_mem fun hx => hfg hx.1]
          exact hsame
  · exact ⟨hleft ▸ left, by rw [hqueued]; exact leads, by rw [hleft, hstorage, hqueued]; exact placed⟩

/-- A usable target collects every usable member of its group that is due in a window. -/
theorem PhaseRun.joins_target {storage : ℤ → σ} {ws : List (Window ℕ)} {s : WholeFilePhase δ σ}
    (hrun : PhaseRun opens t storage firstSeq ws s) (hdone : s.Complete)
    (hlo : ∀ w ∈ ws, firstSeq ≤ w.lo) (hr : t.IsElected k r) (hu : isUsable opens r.id = true)
    (hf : f ∈ t.members k) (huf : isUsable opens f.id = true)
    (hdue : ∃ w ∈ ws, w.Contains (dueAt firstSeq r f)) : s.storage f.id = s.storage r.id := by
  have hstart : Converging opens t k r firstSeq (· = f) (WholeFilePhase.start t storage ws) :=
    ⟨hlo, by simp [WholeFilePhase.start, WholeFilePhase.queued], fun g _ _ hg => Or.inl (hg ▸ hdue)⟩
  have hinv := (hrun.invariant (Converging opens t k r firstSeq (· = f)) hstart
    fun u v htidy hs => Converging.step hr hu htidy hs).2
  rcases hinv.placed f hf huf rfl with ⟨w, hw, -⟩ | ⟨g, hg, -⟩ | hsame
  · simp [hdone.1] at hw
  · simp [WholeFilePhase.queued, hdone.2] at hg
  · exact hsame

theorem PhaseRun.stays {storage : ℤ → σ} {ws : List (Window ℕ)} {s : WholeFilePhase δ σ}
    (hrun : PhaseRun opens t storage firstSeq ws s) (hlo : ∀ w ∈ ws, firstSeq ≤ w.lo)
    (hr : t.IsElected k r) (hu : isUsable opens r.id = true) (hf : f ∈ t.members k)
    (huf : isUsable opens f.id = true)
    (hnot : f = r ∨ ∀ w ∈ ws, ¬w.Contains (dueAt firstSeq r f)) : s.storage f.id = storage f.id := by
  have hinv := hrun.invariant (fun u => (∀ w ∈ u.left, w ∈ ws) ∧
    (∀ g ∈ u.queued, f.id ∈ g → g.head? = some f.id) ∧ u.storage f.id = storage f.id)
    ⟨fun _ => id, by simp [WholeFilePhase.start, WholeFilePhase.queued], rfl⟩ ?_
  · exact hinv.2.2.2
  · rintro u v htidy hs ⟨hleft, hlead, hsame⟩
    rcases hs.cases_queued htidy with ⟨recs, w, hw, hstorage, hqueued⟩ |
      ⟨hl, gs, g, gs', hq, hq', hstorage⟩ | ⟨hl, hstorage, hqueued⟩
    · rw [hw] at hleft
      refine ⟨fun x hx => hleft x (List.mem_cons_of_mem _ hx), fun g hg hfg => ?_,
        by rw [hstorage]; exact hsame⟩
      rw [hqueued] at hg
      rcases List.mem_append.mp hg with hg | hg
      · exact hlead g hg hfg
      · have htarget := u.table.target_eq_some_iff.mpr (htidy.trimmed.elected hr hu)
        have heq := eq_loadedGroup_of_mem htidy.trimmed hg hf hfg
        rw [heq] at hfg ⊢
        have hhead := head?_loadedGroup htarget hfg
        by_cases hne : f = r
        · rw [hne]
          exact hhead
        · have hww := hleft w List.mem_cons_self
          exact absurd ((mem_loadedGroup_iff_due (hlo w hww) htarget
            (htidy.trimmed.members_of_usable hf huf) hne).mp hfg) (hnot.resolve_left hne w hww)
    · refine ⟨hl ▸ hleft, fun x hx => hlead x ?_, ?_⟩
      · rw [hq'] at hx
        rw [hq]
        rcases List.mem_append.mp hx with hx | hx
        · exact List.mem_append_left _ hx
        · exact List.mem_append_right _ (List.mem_cons_of_mem _ hx)
      · rw [hstorage, ← hsame]
        by_cases hfg : f.id ∈ g
        · exact gather_find (find?_of_head? (hlead g (by simp [hq]) hfg) huf)
        · exact gather_of_not_mem fun hx => hfg hx.1
    · exact ⟨hl ▸ hleft, by rw [hqueued]; exact hlead, by rw [hstorage]; exact hsame⟩

/-- A usable target brings all usable new members of its group together. -/
theorem PhaseRun.converges_of_elected {storage : ℤ → σ} {ws : List (Window ℕ)}
    {s : WholeFilePhase δ σ} (hcut : IsCut firstSeq ws t.getMaxDedupeSeq)
    (hrun : PhaseRun opens t storage firstSeq ws s) (hdone : s.Complete) (hr : t.IsElected k r)
    (hu : isUsable opens r.id = true) (hf : t.UsableNew k firstSeq (isUsable opens) f) :
    s.storage f.id = s.storage r.id := by
  refine hrun.joins_target hdone hcut.lo_ge hr hu hf.1 hf.2.2 ?_
  rw [dueAt, if_pos hf.2.1]
  exact hcut.exists_contains hf.2.1 (t.dedupeSeq_le_max (t.mem_members.mp hf.1).1)

end Elected

section OneWindow

def Harmless (S : FileRow δ → Prop) (g : List ℤ) : Prop := ∀ f, S f → f.id ∈ g → g.head? = some f.id

def Full (S : FileRow δ → Prop) (g : List ℤ) : Prop := ∀ f, S f → f.id ∈ g

/-- With all usable new members in one window, they wait for it, are in flight together, or are in
one place, and no other group in flight moves them. -/
structure Gathering (S : FileRow δ → Prop) (s : WholeFilePhase δ σ) : Prop where
  groups : ∀ g ∈ s.queued, Harmless S g ∨ Full S g
  placed : (∃ w ∈ s.left, ∀ f, S f → w.Contains f.dedupeSeq) ∨ (∃ g ∈ s.queued, Full S g) ∨
    ∀ f, S f → ∀ f', S f' → s.storage f.id = s.storage f'.id

/-- A window loads two usable new members of a group together or leaves both in place. -/
theorem harmless_or_full_of_load {S : FileRow δ → Prop} {recs : List Filerec} {w : Window ℕ}
    {g : List ℤ} {f₀ f₁ : FileRow δ} (htrim : Trimmed opens t t')
    (hS : ∀ f, S f → t.UsableNew k firstSeq (isUsable opens) f) (h₀ : S f₀) (h₁ : S f₁)
    (hne : f₀ ≠ f₁) (hwin : ∀ f, S f → ∀ f', S f' →
      (w.Contains f.dedupeSeq ↔ w.Contains f'.dedupeSeq))
    (hg : g ∈ pushedGroups (loadedTree t' recs w firstSeq)) : Harmless S g ∨ Full S g := by
  have hkept : ∀ f, S f → f ∈ t'.members k := fun f hf =>
    htrim.members_of_usable (hS f hf).1 (hS f hf).2.2
  obtain ⟨r', hr'⟩ := t'.exists_target (List.length_pos_of_mem (hkept f₀ h₀))
  by_cases hany : ∃ f, S f ∧ f.id ∈ g
  · obtain ⟨x, hx, hxg⟩ := hany
    obtain rfl := eq_loadedGroup_of_mem htrim hg (hS x hx).1 hxg
    have hmem : ∀ f, S f → f ≠ r' → (f.id ∈ loadedGroup t' recs w firstSeq k ↔
        w.Contains f.dedupeSeq) := fun f hf hfr =>
      mem_loadedGroup_of_new hr' (hkept f hf) (hS f hf).2.1 hfr
    by_cases hc : w.Contains f₀.dedupeSeq
    · right
      intro f hf
      by_cases hfr : f = r'
      · -- the target leads the group that some other usable new member is in
        obtain ⟨y, hy, hyr⟩ : ∃ y, S y ∧ y ≠ r' := by
          by_cases h : f₀ = r'
          · exact ⟨f₁, h₁, fun h' => hne (h.trans h'.symm)⟩
          · exact ⟨f₀, h₀, h⟩
        have hyg := (hmem y hy hyr).mpr ((hwin f₀ h₀ y hy).mp hc)
        rw [hfr]
        exact List.mem_of_mem_head? (head?_loadedGroup hr' hyg)
      · exact (hmem f hf hfr).mpr ((hwin f₀ h₀ f hf).mp hc)
    · left
      intro f hf hfg
      by_cases hfr : f = r'
      · rw [hfr]
        exact head?_loadedGroup hr' hxg
      · exact absurd ((hwin f hf f₀ h₀).mp ((hmem f hf hfr).mp hfg)) hc
  · exact Or.inl fun f hf hfg => absurd ⟨f, hf, hfg⟩ hany

theorem Gathering.step {S : FileRow δ → Prop} {s s' : WholeFilePhase δ σ} {ws : List (Window ℕ)}
    {f₀ f₁ : FileRow δ} (hS : ∀ f, S f → t.UsableNew k firstSeq (isUsable opens) f)
    (h₀ : S f₀) (h₁ : S f₁) (hne : f₀ ≠ f₁)
    (hwin : ∀ w ∈ ws, ∀ f, S f → ∀ f', S f' → (w.Contains f.dedupeSeq ↔ w.Contains f'.dedupeSeq))
    (hleft : ∀ w ∈ s.left, w ∈ ws) (htidy : Tidy opens t s)
    (hstep : PhaseStep opens firstSeq s s') (h : Gathering S s) : Gathering S s' := by
  obtain ⟨groups, placed⟩ := h
  rcases hstep.cases_queued htidy with ⟨recs, w, hw, hstorage, hqueued⟩ |
    ⟨hl, gs, g, gs', hq, hq', hstorage⟩ | ⟨hl, hstorage, hqueued⟩
  · have hwws := hwin w (hleft w (by simp [hw]))
    refine ⟨fun g hg => ?_, ?_⟩
    · rw [hqueued] at hg
      rcases List.mem_append.mp hg with hg | hg
      · exact groups g hg
      · exact harmless_or_full_of_load htidy.trimmed hS h₀ h₁ hne hwws hg
    · rw [hqueued, hstorage]
      rcases placed with ⟨v, hv, hc⟩ | ⟨g, hg, hfull⟩ | hsame
      · rw [hw] at hv
        rcases List.mem_cons.mp hv with rfl | hv
        · -- this is the window that holds them all
          have hkept : ∀ f, S f → f ∈ s.table.members k := fun f hf =>
            htidy.trimmed.members_of_usable (hS f hf).1 (hS f hf).2.2
          obtain ⟨r', hr'⟩ := s.table.exists_target (List.length_pos_of_mem (hkept f₀ h₀))
          have hmem : ∀ f, S f → f ≠ r' → f.id ∈ loadedGroup s.table recs v firstSeq k :=
            fun f hf hfr => (mem_loadedGroup_of_new hr' (hkept f hf) (hS f hf).2.1 hfr).mpr (hc f hf)
          obtain ⟨y, hy, hyr⟩ : ∃ y, S y ∧ y ≠ r' := by
            by_cases h : f₀ = r'
            · exact ⟨f₁, h₁, fun h' => hne (h.trans h'.symm)⟩
            · exact ⟨f₀, h₀, h⟩
          refine Or.inr (Or.inl ⟨_, List.mem_append_right _ (mem_pushedGroups.mpr
            ⟨List.ne_nil_of_mem (hmem y hy hyr), k, rfl⟩), fun f hf => ?_⟩)
          by_cases hfr : f = r'
          · rw [hfr]
            exact List.mem_of_mem_head? (head?_loadedGroup hr' (hmem y hy hyr))
          · exact hmem f hf hfr
        · exact Or.inl ⟨v, hv, hc⟩
      · exact Or.inr (Or.inl ⟨g, List.mem_append_left _ hg, hfull⟩)
      · exact Or.inr (Or.inr hsame)
  · have hgq : g ∈ s.queued := by simp [hq]
    have hsub : ∀ x ∈ s'.queued, x ∈ s.queued := by
      intro x hx
      rw [hq'] at hx
      rw [hq]
      rcases List.mem_append.mp hx with hx | hx
      · exact List.mem_append_left _ hx
      · exact List.mem_append_right _ (List.mem_cons_of_mem _ hx)
    refine ⟨fun x hx => groups x (hsub x hx), ?_⟩
    by_cases hfull : Full S g
    · refine Or.inr (Or.inr fun f hf f' hf' => ?_)
      rw [hstorage]
      exact gather_eq_of_mem (hfull f hf) (hS f hf).2.2 (hfull f' hf') (hS f' hf').2.2
    · have hharm := (groups g hgq).resolve_right hfull
      have hstay : ∀ f, S f → s'.storage f.id = s.storage f.id := by
        intro f hf
        rw [hstorage]
        by_cases hfg : f.id ∈ g
        · exact gather_find (find?_of_head? (hharm f hf hfg) (hS f hf).2.2)
        · exact gather_of_not_mem fun hx => hfg hx.1
      rcases placed with hw | ⟨x, hx, hxfull⟩ | hsame
      · exact Or.inl (by rw [hl]; exact hw)
      · refine Or.inr (Or.inl ⟨x, ?_, hxfull⟩)
        rw [hq] at hx
        rw [hq']
        rcases List.mem_append.mp hx with hx | hx
        · exact List.mem_append_left _ hx
        · rcases List.mem_cons.mp hx with rfl | hx
          · exact absurd hxfull hfull
          · exact List.mem_append_right _ hx
      · exact Or.inr (Or.inr fun f hf f' hf' => by rw [hstay f hf, hstay f' hf']; exact hsame f hf f' hf')
  · exact ⟨by rw [hqueued]; exact groups, by rw [hl, hstorage, hqueued]; exact placed⟩

/-- One window that holds all usable new members of a group brings them together. -/
theorem PhaseRun.converges_of_one_window {storage : ℤ → σ} {ws : List (Window ℕ)}
    {s : WholeFilePhase δ σ} (hcut : IsCut firstSeq ws t.getMaxDedupeSeq)
    (hrun : PhaseRun opens t storage firstSeq ws s) (hdone : s.Complete)
    (hwin : ∀ f, t.UsableNew k firstSeq (isUsable opens) f →
      ∀ f', t.UsableNew k firstSeq (isUsable opens) f' →
        ∀ w ∈ ws, w.Contains f.dedupeSeq ↔ w.Contains f'.dedupeSeq)
    {f f' : FileRow δ} (hf : t.UsableNew k firstSeq (isUsable opens) f)
    (hf' : t.UsableNew k firstSeq (isUsable opens) f') : s.storage f.id = s.storage f'.id := by
  by_cases hne : f = f'
  · rw [hne]
  · let S := t.UsableNew k firstSeq (isUsable opens)
    have hstart : (∀ w ∈ (WholeFilePhase.start t storage ws).left, w ∈ ws) ∧
        Gathering S (WholeFilePhase.start t storage ws) := by
      obtain ⟨w, hw, hc⟩ :=
        hcut.exists_contains hf.2.1 (t.dedupeSeq_le_max (t.mem_members.mp hf.1).1)
      exact ⟨fun w hw => hw, by simp [WholeFilePhase.start, WholeFilePhase.queued],
        Or.inl ⟨w, hw, fun g hg => (hwin f hf g hg w hw).mp hc⟩⟩
    have hinv := (hrun.invariant (fun u => (∀ w ∈ u.left, w ∈ ws) ∧ Gathering S u) hstart
      fun u v htidy hs hu => ⟨fun w hw => hu.1 w ?_, Gathering.step (fun _ => id) hf hf' hne
        (fun w hw g hg g' hg' => hwin g hg g' hg' w hw) hu.1 htidy hs hu.2⟩).2.2
    · rcases hinv.placed with ⟨w, hw, -⟩ | ⟨g, hg, -⟩ | hsame
      · simp [hdone.1] at hw
      · simp [WholeFilePhase.queued, hdone.2] at hg
      · exact hsame f hf f' hf'
    · rcases hs.cases_queued htidy with ⟨recs, v, hv, -⟩ | ⟨hl, -⟩ | ⟨hl, -⟩
      · rw [hv]
        exact List.mem_cons_of_mem _ hw
      · exact hl ▸ hw
      · exact hl ▸ hw

end OneWindow

section Split

def opensIf (usable : ℤ → Bool) (e : ℤ) : MemberState := if usable e then .usable else .unreadable

@[simp] theorem isUsable_opensIf (usable : ℤ → Bool) : isUsable (opensIf usable) = usable := by
  funext e
  unfold isUsable opensIf
  cases usable e <;> rfl

theorem opensIf_ne_deleted (usable : ℤ → Bool) (e : ℤ) : opensIf usable e ≠ .deleted := by
  unfold opensIf
  split <;> exact MemberState.noConfusion

def groupsOfWindows (t : FilesTable δ) (firstSeq : ℕ) (ws : List (Window ℕ)) : List (List ℤ) :=
  ws.flatMap fun w => pushedGroups (loadedTree t [] w firstSeq)

theorem run_batch (usable : ℤ → Bool) (t : FilesTable δ) (p : ℤ → σ) (left : List (Window ℕ))
    (gs : List (List ℤ)) (hnodup : ∀ g ∈ gs, g.Nodup) :
    Relation.ReflTransGen (PhaseStep (opensIf usable) firstSeq)
      (⟨t, p, left, [gs]⟩ : WholeFilePhase δ σ) ⟨t, gatherAll usable gs p, left, []⟩ := by
  induction gs generalizing p with
  | nil => exact .single (.reap [] rfl)
  | cons g gs ih =>
    have hrun : PhaseStep (opensIf usable) firstSeq (⟨t, p, left, [g :: gs]⟩ : WholeFilePhase δ σ)
        ⟨t, gather usable g p, left, [gs]⟩ := by
      have hstep : PhaseStep (opensIf usable) firstSeq
          (⟨t, p, left, [g :: gs]⟩ : WholeFilePhase δ σ) _ := .run [] [] [] gs g rfl
      have hstorage := dedupeExtentList_storage (opensIf usable) g (hnodup g List.mem_cons_self)
        (⟨t, p, none⟩ : GroupRun δ σ) rfl
      have htable := dedupeExtentList_table_eq (opensIf usable) g (⟨t, p, none⟩ : GroupRun δ σ)
        fun e _ => opensIf_ne_deleted usable e
      rw [isUsable_opensIf] at hstorage
      rw [hstorage, htable] at hstep
      exact hstep
    exact .head hrun (ih _ fun g' hg' => hnodup g' (List.mem_cons_of_mem _ hg'))

/-- The run that loads a window only when the groups of the one before it are done. -/
theorem exists_run (usable : ℤ → Bool) (t : FilesTable δ) (p : ℤ → σ) (firstSeq : ℕ)
    (ws : List (Window ℕ)) : PhaseRun (opensIf usable) t p firstSeq ws
      ⟨t, gatherAll usable (groupsOfWindows t firstSeq ws) p, [], []⟩ := by
  unfold PhaseRun WholeFilePhase.start
  induction ws generalizing p with
  | nil => exact .refl
  | cons w ws ih =>
    have hload : PhaseStep (opensIf usable) firstSeq (⟨t, p, w :: ws, []⟩ : WholeFilePhase δ σ)
        ⟨t, p, ws, [pushedGroups (loadedTree t [] w firstSeq)]⟩ :=
      .load [] w ws rfl (by simp [DEDUPE_MAX_INFLIGHT])
    have hnodup : ∀ g ∈ pushedGroups (loadedTree t [] w firstSeq), g.Nodup := by
      intro g hg
      obtain ⟨-, k, rfl⟩ := mem_pushedGroups.mp hg
      exact loadedGroup_nodup _ _ _ _ _
    have hsplit : groupsOfWindows t firstSeq (w :: ws) =
        pushedGroups (loadedTree t [] w firstSeq) ++ groupsOfWindows t firstSeq ws := rfl
    rw [hsplit, gatherAll_append]
    exact (Relation.ReflTransGen.head hload (run_batch usable t p ws _ hnodup)).trans (ih _)

theorem window_unique {ws : List (Window ℕ)} (hcut : IsCut firstSeq ws t.getMaxDedupeSeq)
    (hr : t.target k = some r) (hf : f ∈ t.members k) (hne : f ≠ r) {recs recs' : List Filerec}
    {w w' : Window ℕ} (hw : w ∈ ws) (hw' : w' ∈ ws)
    (hin : f.id ∈ loadedGroup t recs w firstSeq k)
    (hin' : f.id ∈ loadedGroup t recs' w' firstSeq k) : w = w' :=
  hcut.eq_of_contains hw hw'
    ((mem_loadedGroup_iff_due (hcut.lo_ge w hw) hr hf hne).mp hin)
    ((mem_loadedGroup_iff_due (hcut.lo_ge w' hw') hr hf hne).mp hin')

/-- The member of its group that a new member ends up with when the target cannot be used: the
first usable one its own window loads. -/
theorem gatherAll_groupsOfWindows {usable : ℤ → Bool} {ws : List (Window ℕ)}
    (hcut : IsCut firstSeq ws t.getMaxDedupeSeq) (hr : t.target k = some r)
    (hu : usable r.id = false) (hf : t.UsableNew k firstSeq usable f) (p : ℤ → σ) :
    ∃ w ∈ ws, w.Contains f.dedupeSeq ∧ ∃ u ∈ t.members k, u ≠ r ∧
      u.id ∈ loadedGroup t [] w firstSeq k ∧
      gatherAll usable (groupsOfWindows t firstSeq ws) p f.id = p u.id := by
  have hne_of : ∀ x : FileRow δ, usable x.id = true → x ≠ r := fun x hx heq => by
    rw [heq, hu] at hx
    cases hx
  obtain ⟨w, hw, hc⟩ :=
    hcut.exists_contains hf.2.1 (t.dedupeSeq_le_max (t.mem_members.mp hf.1).1)
  have hfg : f.id ∈ loadedGroup t [] w firstSeq k :=
    (mem_loadedGroup_of_new hr hf.1 hf.2.1 (hne_of f hf.2.2)).mpr hc
  obtain ⟨a, ha⟩ : ∃ a, (loadedGroup t [] w firstSeq k).find? usable = some a := by
    cases h : (loadedGroup t [] w firstSeq k).find? usable with
    | some a => exact ⟨a, rfl⟩
    | none => exact absurd hf.2.2 (List.find?_eq_none.mp h f.id hfg)
  obtain ⟨-, -, -, -, u, hum, -, rfl⟩ := mem_loadedGroup.mp (List.mem_of_find?_eq_some ha)
  have huu : usable u.id = true := List.find?_some ha
  refine ⟨w, hw, hc, u, hum, hne_of u huu, List.mem_of_find?_eq_some ha, ?_⟩
  -- `f` and `u` are in no other group of the phase
  refine gatherAll_eq_first (fun x => x = f.id ∨ x = u.id) (fun g hg y hyg hy => ?_)
    (Or.inr rfl) (Or.inl rfl) hf.2.2 (Or.inr ⟨_, ?_, hfg⟩)
  · obtain ⟨v, hv, hgv⟩ := List.mem_flatMap.mp hg
    have hone : ∀ x : FileRow δ, x ∈ t.members k → x ≠ r → x.id ∈ g →
        x.id ∈ loadedGroup t [] w firstSeq k → g = loadedGroup t [] w firstSeq k := by
      intro x hx hxr hxg hxw
      have heq := eq_loadedGroup_of_mem (Trimmed.refl (opensIf usable) t) hgv hx hxg
      rw [heq] at hxg
      rw [heq, window_unique hcut hr hx hxr hv hw hxg hxw]
    rcases hy with rfl | rfl
    · rw [hone f hf.1 (hne_of f hf.2.2) hyg hfg]
      exact ha
    · rw [hone u hum (hne_of u huu) hyg (List.mem_of_find?_eq_some ha)]
      exact ha
  · exact List.mem_flatMap.mpr ⟨w, hw, mem_pushedGroups.mpr ⟨List.ne_nil_of_mem hfg, k, rfl⟩⟩

/-- With a target that cannot be used, new members of two windows end up in different places. -/
theorem exists_split_run {usable : ℤ → Bool} {ws : List (Window ℕ)}
    (hcut : IsCut firstSeq ws t.getMaxDedupeSeq) (hr : t.IsElected k r)
    (hu : usable r.id = false) {f f' : FileRow δ} (hf : t.UsableNew k firstSeq usable f)
    (hf' : t.UsableNew k firstSeq usable f') {w : Window ℕ} (hw : w ∈ ws)
    (hc : w.Contains f.dedupeSeq) (hc' : ¬w.Contains f'.dedupeSeq) {p : ℤ → σ}
    (hp : Function.Injective p) :
    ∃ s, PhaseRun (opensIf usable) t p firstSeq ws s ∧ s.Complete ∧
      s.storage f.id ≠ s.storage f'.id := by
  have htarget := t.target_eq_some_iff.mpr hr
  refine ⟨_, exists_run usable t p firstSeq ws, ⟨rfl, rfl⟩, fun heq => ?_⟩
  obtain ⟨v, hv, hcv, u, hum, hur, hug, hfu⟩ := gatherAll_groupsOfWindows hcut htarget hu hf p
  obtain ⟨v', hv', hcv', u', hum', -, hug', hfu'⟩ := gatherAll_groupsOfWindows hcut htarget hu hf' p
  have hplace := hp (hfu.symm.trans (heq.trans hfu'))
  have hid : u' = u :=
    t.eq_of_id_eq (t.mem_members.mp hum').1 (t.mem_members.mp hum).1 hplace.symm
  rw [hid] at hug'
  have hvv := window_unique hcut htarget hum hur hv hv' hug hug'
  have hvw := hcut.eq_of_contains hv hw hcv hc
  exact hc' (hvw ▸ hvv ▸ hcv')

end Split

/-- Whatever way the unusable members fail, in whatever order loads and groups run and wherever
the files were, a complete phase leaves the usable new members of a group in one place exactly if
the elected target can be used or one window holds them all. -/
theorem phase_converges_iff (t : FilesTable δ) (firstSeq : ℕ) (ws : List (Window ℕ))
    (hcut : IsCut firstSeq ws t.getMaxDedupeSeq) (usable : ℤ → Bool) (k : δ × ℕ) :
    (∀ (opens : ℤ → MemberState) (storage : ℤ → ℕ) (s : WholeFilePhase δ ℕ),
      isUsable opens = usable → PhaseRun opens t storage firstSeq ws s → s.Complete →
      ∀ f, t.UsableNew k firstSeq usable f → ∀ f', t.UsableNew k firstSeq usable f' →
        s.storage f.id = s.storage f'.id) ↔
    (∀ r, t.IsElected k r → usable r.id = true) ∨
      ∀ f, t.UsableNew k firstSeq usable f → ∀ f', t.UsableNew k firstSeq usable f' →
        ∀ w ∈ ws, w.Contains f.dedupeSeq ↔ w.Contains f'.dedupeSeq := by
  constructor
  · intro h
    by_contra! hnot
    obtain ⟨⟨r, hr, hu⟩, f, hf, f', hf', w, hw, hdiff⟩ := hnot
    have hur : usable r.id = false := by simpa using hu
    have hsplit : ∀ f f', t.UsableNew k firstSeq usable f → t.UsableNew k firstSeq usable f' →
        w.Contains f.dedupeSeq → ¬w.Contains f'.dedupeSeq → False := by
      intro f f' hf hf' hc hc'
      obtain ⟨s, hrun, hdone, hne⟩ := exists_split_run hcut hr hur hf hf' hw hc hc'
        Equiv.intEquivNat.injective
      exact hne (h _ _ s (isUsable_opensIf usable) hrun hdone f hf f' hf')
    rcases hdiff with ⟨hc, hc'⟩ | ⟨hc, hc'⟩
    · exact hsplit f f' hf hf' hc hc'
    · exact hsplit f' f hf' hf hc' hc
  · rintro hcond opens storage s rfl hrun hdone f hf f' hf'
    rcases hcond with helected | hwin
    · obtain ⟨r, hr⟩ := t.exists_target (List.length_pos_of_mem hf.1)
      rw [t.target_eq_some_iff] at hr
      rw [hrun.converges_of_elected hcut hdone hr (helected r hr) hf,
        hrun.converges_of_elected hcut hdone hr (helected r hr) hf']
    · exact hrun.converges_of_one_window hcut hdone hwin hf hf'

def threeCopies : FilesTable ℕ where
  rows := [⟨1, "a", 10, 1, some 7, some 0, 1⟩, ⟨2, "b", 10, 1, some 7, some 0, 2⟩,
    ⟨3, "c", 10, 2, some 7, some 0, 2⟩]
  ids_nodup := by decide

/-- While `a` cannot be read, the windows of `b` and of `c` each find a single usable member. -/
theorem threeCopies_stay_apart :
    threeCopies.UsableNew (7, 10) 0 (· ≠ 1) ⟨2, "b", 10, 1, some 7, some 0, 2⟩ ∧
      threeCopies.UsableNew (7, 10) 0 (· ≠ 1) ⟨3, "c", 10, 2, some 7, some 0, 2⟩ ∧
      ∃ s, PhaseRun (opensIf (· ≠ 1)) threeCopies id 0 [⟨0, 1⟩, ⟨1, 2⟩] s ∧ s.Complete ∧
        s.storage 2 ≠ s.storage 3 := by
  have hb : threeCopies.UsableNew (7, 10) 0 (· ≠ 1) ⟨2, "b", 10, 1, some 7, some 0, 2⟩ :=
    ⟨by decide, by decide, by decide⟩
  have hc : threeCopies.UsableNew (7, 10) 0 (· ≠ 1) ⟨3, "c", 10, 2, some 7, some 0, 2⟩ :=
    ⟨by decide, by decide, by decide⟩
  exact ⟨hb, hc, exists_split_run (r := ⟨1, "a", 10, 1, some 7, some 0, 1⟩) (by decide) (by decide)
    (by decide) hb hc (w := ⟨0, 1⟩) (by decide) (by decide) (by decide) Function.injective_id⟩

/-- With every copy readable they come together. -/
theorem phase_converges_iff_threeCopies :
    gatherAll (fun _ => true) (groupsOfWindows threeCopies 0 [⟨0, 1⟩, ⟨1, 2⟩]) Int.toNat 2 =
      gatherAll (fun _ => true) (groupsOfWindows threeCopies 0 [⟨0, 1⟩, ⟨1, 2⟩]) Int.toNat 3 :=
  (phase_converges_iff threeCopies 0 [⟨0, 1⟩, ⟨1, 2⟩] (by decide) (fun _ => true) (7, 10)).mpr
    (Or.inl fun _ _ => rfl) _ _ _ (isUsable_opensIf _)
    (exists_run (fun _ => true) threeCopies Int.toNat 0 _) ⟨rfl, rfl⟩
    ⟨2, "b", 10, 1, some 7, some 0, 2⟩ ⟨by decide, by decide, rfl⟩
    ⟨3, "c", 10, 2, some 7, some 0, 2⟩ ⟨by decide, by decide, rfl⟩

end Oans
