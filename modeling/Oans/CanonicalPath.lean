import Oans.PathResolution

/-!
# Canonical paths

An absolute path without empty components is the list of its names, each behind a slash. As a string
it is the beginning of another one, up to a slash, only where its names are. Where no name is a
link, resolving the path is looking its names up one after the other.
-/

namespace PathResolution

def IsName (c : Path) : Prop := c ≠ [] ∧ slash ∉ c

instance (c : Path) : Decidable (IsName c) := inferInstanceAs (Decidable (_ ∧ _))

def below (names : List Path) : Path := names.flatMap (slash :: ·)

@[simp] theorem below_nil : below [] = [] := rfl

@[simp] theorem below_cons (c : Path) (cs : List Path) :
    below (c :: cs) = slash :: c ++ below cs := by
  simp [below]

theorem below_append (cs ds : List Path) : below (cs ++ ds) = below cs ++ below ds := by
  simp [below]

theorem components_append_below {names : List Path} (h : ∀ c ∈ names, IsName c) (s : Path) :
    components (s ++ below names) = components s ++ names := by
  induction names generalizing s with
  | nil => simp
  | cons c cs ih =>
    obtain ⟨⟨hne, hslash⟩, hcs⟩ := List.forall_mem_cons.mp h
    rw [below_cons, List.cons_append, components_append_slash, ih hcs,
      components_of_notMem hslash hne, List.singleton_append]

def render (names : List Path) : Path := if names = [] then [slash] else below names

@[simp] theorem render_nil : render [] = [slash] := rfl

theorem render_of_ne_nil {names : List Path} (h : names ≠ []) : render names = below names :=
  if_neg h

@[simp] theorem render_append_singleton (names : List Path) (c : Path) :
    render (names ++ [c]) = below names ++ slash :: c := by
  rw [render_of_ne_nil (by simp), below_append]
  simp

theorem components_render {names : List Path} (h : ∀ c ∈ names, IsName c) :
    components (render names) = names := by
  by_cases hnil : names = []
  · subst hnil
    simp [render]
  · rw [render_of_ne_nil hnil]
    simpa using components_append_below h []

theorem render_injOn {names names' : List Path} (h : ∀ c ∈ names, IsName c)
    (h' : ∀ c ∈ names', IsName c) (heq : render names = render names') : names = names' := by
  rw [← components_render h, heq, components_render h']

/-- Cut at a slash, the path of some names is the path of the first of them. -/
theorem isPrefix_of_render_append {names roots : List Path} {t : Path}
    (h : ∀ c ∈ names, IsName c) (hroots : ∀ c ∈ roots, IsName c)
    (heq : render names = render roots ++ slash :: t) : roots <+: names := by
  refine ⟨components t, ?_⟩
  rw [← components_render h, heq, components_append_slash, components_render hroots]

section Leads

variable {ν ε : Type*} {T : DirTree ν ε}

/-- Following components none of which is a link. -/
def Leads (T : DirTree ν ε) : ν → List Path → ν → Prop
  | d, [], n => d = n
  | d, c :: cs, n => ∃ m, T.lookup d c = .ok m ∧ T.target m = none ∧ Leads T m cs n

theorem leads_append {d n : ν} {cs ds : List Path} :
    Leads T d (cs ++ ds) n ↔ ∃ m, Leads T d cs m ∧ Leads T m ds n := by
  induction cs generalizing d with
  | nil => simp [Leads]
  | cons c cs ih => simp only [List.cons_append, Leads, ih]; grind

theorem leads_concat {d m n : ν} {cs : List Path} {c : Path} (h : Leads T d cs m)
    (hlookup : T.lookup m c = .ok n) (hstay : T.target n = none) : Leads T d (cs ++ [c]) n :=
  leads_append.mpr ⟨m, h, n, hlookup, hstay, rfl⟩

theorem Leads.resolves {d n : ν} {cs : List Path} (h : Leads T d cs n) (follow : Bool) :
    Resolves T d cs follow (.ok n) := by
  induction cs generalizing d with
  | nil =>
    cases h
    exact .nil
  | cons c cs ih =>
    obtain ⟨m, hlookup, hstay, hrest⟩ := h
    exact .entry hlookup (Or.inl hstay) (ih hrest)

/-- The last component is only looked up, where links are not followed. -/
theorem Leads.resolves_concat {d m : ν} {cs : List Path} (h : Leads T d cs m) (c : Path) (n : ν) :
    Resolves T d (cs ++ [c]) false (.ok n) ↔ T.lookup m c = .ok n := by
  rw [resolves_append (List.cons_ne_nil c [])]
  constructor
  · rintro (⟨m', hm', hc⟩ | ⟨e, -, he⟩)
    · cases hm'.unique (h.resolves true)
      cases hc with
      | entry hlookup _ tail =>
        cases tail
        exact hlookup
      | link _ _ hfollow => exact absurd ⟨rfl, rfl⟩ hfollow
    · cases he
  · intro hlookup
    exact Or.inl ⟨m, h.resolves true, .entry hlookup (Or.inr ⟨rfl, rfl⟩) .nil⟩

def lookups (T : DirTree ν ε) : ν → List Path → Option ν
  | d, [] => some d
  | d, c :: cs =>
    match T.lookup d c with
    | .ok m => lookups T m cs
    | .error _ => none

theorem lookups_eq_some_iff (hlinks : ∀ n, T.target n = none) {d n : ν} {cs : List Path} :
    lookups T d cs = some n ↔ Leads T d cs n := by
  induction cs generalizing d with
  | nil => simp [lookups, Leads]
  | cons c cs ih =>
    rw [lookups, Leads]
    cases T.lookup d c <;> simp [ih, hlinks]

/-- A tree without links resolves a path by its lookups. -/
theorem resolves_iff_lookups (hlinks : ∀ n, T.target n = none) {d n : ν} {cs : List Path}
    {follow : Bool} : Resolves T d cs follow (.ok n) ↔ lookups T d cs = some n := by
  rw [lookups_eq_some_iff hlinks]
  constructor
  · intro h
    generalize hr : (Except.ok n : Except ε ν) = r at h
    induction h with
    | nil => exact (Except.ok.inj hr).symm
    | missing => cases hr
    | entry hlookup _ _ ih => exact ⟨_, hlookup, hlinks _, ih hr⟩
    | link _ htarget => simp [hlinks] at htarget
    | broken => cases hr
  · exact fun h => h.resolves follow

end Leads

structure CanonicalPath where
  names : List Path
  isName : ∀ c ∈ names, IsName c

namespace CanonicalPath

def bytes (p : CanonicalPath) : Path := render p.names

theorem components_bytes (p : CanonicalPath) : components p.bytes = p.names :=
  components_render p.isName

theorem bytes_inj {p q : CanonicalPath} (h : p.bytes = q.bytes) : p.names = q.names :=
  render_injOn p.isName q.isName h

end CanonicalPath

end PathResolution
