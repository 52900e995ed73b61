import Oans.Utf8

/-!
# Names on the terminal

A file name is any bytes but NUL, so before it is shown its control characters are escaped:
`sanitize_ctrl()` writes into a buffer and never cuts an escape, `ellipsize_path()` then elides the
middle. Both are followed byte by byte. A string is free of controls when each of its bytes is and
no two neighbours spell one, which prefixes and joins of such strings keep.
-/

namespace Oans

structure CString where
  bytes : List UInt8
  noNul : 0 ∉ bytes

/-- `p[i]` for a string that ends in NUL. -/
def byteAt (p : List UInt8) (i : ℕ) : UInt8 := p.getD i 0

def hexDigit (n : ℕ) : UInt8 :=
  [0x30, 0x31, 0x32, 0x33, 0x34, 0x35, 0x36, 0x37, 0x38, 0x39, 0x61, 0x62, 0x63, 0x64, 0x65,
    0x66].getD n 0

def escapeCtrlByte (c : UInt8) : List UInt8 :=
  if c = 0x09 then [0x5c, 0x74]
  else if c = 0x0a then [0x5c, 0x6e]
  else if c = 0x0d then [0x5c, 0x72]
  else [0x5c, 0x78, hexDigit (c.toNat / 16), hexDigit (c.toNat % 16)]

/-- `ctrl_seq_len()` with the control's code point, nothing where it returns 0. -/
def ctrlSeqLen (p : List UInt8) : Option (ℕ × UInt8) :=
  if byteAt p 0 < 0x20 ∨ byteAt p 0 = 0x7f then some (1, byteAt p 0)
  else if byteAt p 0 = 0xc2 ∧ 0x80 ≤ byteAt p 1 ∧ byteAt p 1 ≤ 0x9f then some (2, byteAt p 1)
  else none

def hasCtrl : List UInt8 → Bool
  | [] => false
  | b :: s => (ctrlSeqLen (b :: s)).isSome || hasCtrl s

def safeBytes : List UInt8 → ℕ
  | [] => 0
  | b :: s => if (ctrlSeqLen (b :: s)).isSome then 0 else safeBytes s + 1

/-- The loop of `sanitize_ctrl()` at `p`, with what it has written. -/
def sanitizeLoop (outSz : ℕ) (p out : List UInt8) : List UInt8 :=
  match p with
  | [] => out
  | b :: s =>
    match ctrlSeqLen (b :: s) with
    | none =>
      let run := b :: s.take (safeBytes s)
      let len := min run.length (outSz - out.length - 1)
      let out := out ++ run.take len
      -- the buffer is full
      if out.length + 1 = outSz then out else sanitizeLoop outSz (s.drop (safeBytes s)) out
    | some (n, cp) =>
      let esc := escapeCtrlByte cp
      if outSz < out.length + esc.length + 1 then out
      else sanitizeLoop outSz (s.drop (n - 1)) (out ++ esc)
termination_by p.length

/-- `sanitize_ctrl()`: what stands before the NUL it writes, which it does not into no buffer. -/
def sanitizeCtrl (s : CString) (outSz : ℕ) : Option (List UInt8) :=
  if outSz = 0 then none else some (sanitizeLoop outSz s.bytes [])

/-- What is written at once: an escape, or a safe byte. -/
def pieces (p : List UInt8) : List (List UInt8) :=
  match p with
  | [] => []
  | b :: s =>
    match ctrlSeqLen (b :: s) with
    | none => [b] :: pieces s
    | some (n, cp) => escapeCtrlByte cp :: pieces (s.drop (n - 1))
termination_by p.length

def fitting {α : Type*} : ℕ → List (List α) → List α
  | _, [] => []
  | n, x :: xs => if x.length ≤ n then x ++ fitting (n - x.length) xs else []

theorem fitting_spec {α : Type*} (n : ℕ) (xs : List (List α)) :
    (fitting n xs).length ≤ n ∧ ∃ k, fitting n xs = (xs.take k).flatten ∧
      (k = xs.length ∨ ∃ x, xs[k]? = some x ∧ n < (fitting n xs).length + x.length) := by
  induction xs generalizing n with
  | nil => exact ⟨Nat.zero_le _, 0, rfl, Or.inl rfl⟩
  | cons x xs ih =>
    rw [fitting]
    by_cases hx : x.length ≤ n
    · obtain ⟨hle, k, hk, hend⟩ := ih (n - x.length)
      rw [if_pos hx, List.length_append]
      refine ⟨by omega, k + 1, by rw [List.take_succ_cons, List.flatten_cons, hk], ?_⟩
      rcases hend with rfl | ⟨y, hy, hlt⟩
      · exact Or.inl rfl
      · exact Or.inr ⟨y, hy, by omega⟩
    · rw [if_neg hx]
      exact ⟨Nat.zero_le _, 0, rfl, Or.inr ⟨x, rfl, by simpa using hx⟩⟩

theorem fitting_initial {α : Type*} (n : ℕ) (xs : List (List α)) :
    fitting n xs <+: xs.flatten := by
  obtain ⟨-, k, hk, -⟩ := fitting_spec n xs
  refine ⟨(xs.drop k).flatten, ?_⟩
  rw [hk, ← List.flatten_append, List.take_append_drop]

theorem fitting_of_le {α : Type*} {n : ℕ} {xs : List (List α)} (h : xs.flatten.length ≤ n) :
    fitting n xs = xs.flatten := by
  induction xs generalizing n with
  | nil => rfl
  | cons x xs ih =>
    rw [List.flatten_cons, List.length_append] at h
    rw [fitting, if_pos (by omega), ih (by omega), List.flatten_cons]

theorem fitting_zero {α : Type*} {xs : List (List α)} (h : ∀ x ∈ xs, x ≠ []) :
    fitting 0 xs = [] := by
  cases xs with
  | nil => rfl
  | cons x xs =>
    have := h x List.mem_cons_self
    rw [fitting, if_neg (by simpa using this)]

theorem fitting_singletons {α : Type*} {xs : List (List α)} (h : ∀ x ∈ xs, x ≠ []) (n : ℕ)
    (run : List α) : fitting n (run.map (fun b => [b]) ++ xs) =
      run.take n ++ fitting (n - run.length) xs := by
  induction run generalizing n with
  | nil => simp
  | cons b run ih =>
    rw [List.map_cons, List.cons_append, fitting]
    cases n with
    | zero => simp [fitting_zero h]
    | succ n =>
      rw [if_pos (by simp), ih, List.take_succ_cons, List.length_singleton, Nat.add_sub_cancel,
        List.length_cons, Nat.add_sub_add_right, List.cons_append, List.nil_append,
        List.cons_append]

theorem escapeCtrlByte_length (c : UInt8) :
    0 < (escapeCtrlByte c).length ∧ (escapeCtrlByte c).length ≤ 4 := by
  unfold escapeCtrlByte
  split_ifs <;> simp

theorem pieces_ne_nil (p : List UInt8) : ∀ x ∈ pieces p, x ≠ [] := by
  induction p using pieces.induct with
  | case1 => simp [pieces]
  | case2 b s h ih =>
    rw [pieces, h]
    exact List.forall_mem_cons.mpr ⟨List.cons_ne_nil _ _, ih⟩
  | case3 b s n cp h ih =>
    rw [pieces, h]
    exact List.forall_mem_cons.mpr ⟨List.length_pos_iff.mp (escapeCtrlByte_length cp).1, ih⟩

theorem pieces_of_none {b : UInt8} {s : List UInt8} (h : ctrlSeqLen (b :: s) = none) :
    pieces (b :: s) = [b] :: pieces s := by
  rw [pieces, h]

theorem pieces_safeBytes (p : List UInt8) :
    pieces p = (p.take (safeBytes p)).map (fun b => [b]) ++ pieces (p.drop (safeBytes p)) := by
  induction p with
  | nil => simp [safeBytes]
  | cons b s ih =>
    rw [safeBytes]
    split
    · rfl
    · next h =>
      rw [pieces_of_none (by simpa using h), ih, List.take_succ_cons, List.drop_succ_cons]
      rfl

/-- A run of safe bytes fills what room there is, and the loop goes on if some is left. -/
theorem fitting_run {b : UInt8} {s : List UInt8} (h : ctrlSeqLen (b :: s) = none) (n : ℕ) :
    fitting n (pieces (b :: s)) = (b :: s.take (safeBytes s)).take n ++
      fitting (n - (b :: s.take (safeBytes s)).length) (pieces (s.drop (safeBytes s))) := by
  rw [← fitting_singletons (pieces_ne_nil _), pieces_of_none h, pieces_safeBytes s]
  simp

/-- `sanitize_ctrl()` writes the pieces that fit. -/
theorem sanitizeLoop_eq (outSz : ℕ) (p out : List UInt8) (h : out.length < outSz) :
    sanitizeLoop outSz p out = out ++ fitting (outSz - 1 - out.length) (pieces p) := by
  induction p, out using sanitizeLoop.induct outSz with
  | case1 out => simp [sanitizeLoop, pieces, fitting]
  | case2 out b s hnone run len out' hfull =>
    have hlen : out'.length = out.length + len := by
      simp only [out', List.length_append, List.length_take]
      omega
    have hroom : len = outSz - 1 - out.length := by omega
    have hover : outSz - 1 - out.length - run.length = 0 := by omega
    rw [fitting_run hnone]
    change _ = out ++ (run.take (outSz - 1 - out.length) ++
      fitting (outSz - 1 - out.length - run.length) _)
    rw [hover, fitting_zero (pieces_ne_nil _), List.append_nil, ← hroom, sanitizeLoop, hnone]
    exact if_pos hfull
  | case3 out b s hnone run len out' hfull ih =>
    have hlen : out'.length = out.length + len := by
      simp only [out', List.length_append, List.length_take]
      omega
    have hrun : len = run.length := by omega
    have htake : run.take len = run := by rw [hrun, List.take_length]
    have hleft : outSz - 1 - out'.length = outSz - 1 - out.length - run.length := by omega
    have hout : out' = out ++ run := congrArg (out ++ ·) htake
    rw [fitting_run hnone]
    change _ = out ++ (run.take (outSz - 1 - out.length) ++
      fitting (outSz - 1 - out.length - run.length) _)
    rw [List.take_of_length_le (by omega), ← hleft, ← List.append_assoc, ← hout,
      ← ih (by omega), sanitizeLoop, hnone]
    exact if_neg hfull
  | case4 out b s n cp hsome esc hover =>
    have hfit : ¬ (escapeCtrlByte cp).length ≤ outSz - 1 - out.length := by
      change ¬ esc.length ≤ _
      omega
    rw [pieces, hsome]
    simp only
    rw [fitting, if_neg hfit, List.append_nil, sanitizeLoop, hsome]
    exact if_pos hover
  | case5 out b s n cp hsome esc hover ih =>
    have hfit : (escapeCtrlByte cp).length ≤ outSz - 1 - out.length := by
      change esc.length ≤ _
      omega
    have hlen : (out ++ esc).length = out.length + (escapeCtrlByte cp).length :=
      List.length_append
    rw [pieces, hsome]
    simp only
    rw [fitting, if_pos hfit, Nat.sub_sub, ← hlen, ← List.append_assoc, sanitizeLoop, hsome]
    exact (if_neg hover).trans (ih (by omega))

def IsCtrlByte (b : UInt8) : Prop := b < 0x20 ∨ b = 0x7f

def SpellsCtrl (a b : UInt8) : Prop := a = 0xc2 ∧ 0x80 ≤ b ∧ b ≤ 0x9f

/-- No byte is a control and no two neighbours spell one. -/
structure NoCtrl (s : List UInt8) : Prop where
  bytes : ∀ b ∈ s, ¬ IsCtrlByte b
  neighbours : s.IsChain fun a b => ¬ SpellsCtrl a b

theorem ctrlSeqLen_eq_none_iff {b : UInt8} {s : List UInt8} :
    ctrlSeqLen (b :: s) = none ↔ ¬ IsCtrlByte b ∧ ∀ y ∈ s.head?, ¬ SpellsCtrl b y := by
  have hsnd : byteAt (b :: s) 1 = s.head?.getD 0 := by cases s <;> rfl
  have hspells : (b = 0xc2 ∧ 0x80 ≤ s.head?.getD 0 ∧ s.head?.getD 0 ≤ 0x9f) ↔
      ∃ y ∈ s.head?, SpellsCtrl b y := by
    cases s with
    | nil => simp
    | cons y s => simp [SpellsCtrl]
  have hfst : byteAt (b :: s) 0 = b := rfl
  unfold ctrlSeqLen
  simp only [hfst, hsnd]
  by_cases hbyte : b < 0x20 ∨ b = 0x7f
  · simp [IsCtrlByte, hbyte]
  · rw [if_neg hbyte]
    by_cases htwo : b = 0xc2 ∧ 0x80 ≤ s.head?.getD 0 ∧ s.head?.getD 0 ≤ 0x9f
    · rw [if_pos htwo]
      obtain ⟨y, hy, hspell⟩ := hspells.mp htwo
      simp only [reduceCtorEq, false_iff, not_and]
      exact fun _ hall => hall y hy hspell
    · rw [if_neg htwo]
      rw [hspells] at htwo
      push Not at htwo
      exact ⟨fun _ => ⟨hbyte, htwo⟩, fun _ => rfl⟩

theorem hasCtrl_eq_false_iff {s : List UInt8} : hasCtrl s = false ↔ NoCtrl s := by
  induction s with
  | nil => exact ⟨fun _ => ⟨by simp, List.isChain_nil⟩, fun _ => rfl⟩
  | cons b s ih =>
    rw [hasCtrl, Bool.or_eq_false_iff, ih, Option.isSome_eq_false_iff, Option.isNone_iff_eq_none,
      ctrlSeqLen_eq_none_iff]
    constructor
    · rintro ⟨⟨hb, hhead⟩, hbytes, hchain⟩
      exact ⟨List.forall_mem_cons.mpr ⟨hb, hbytes⟩, List.isChain_cons.mpr ⟨hhead, hchain⟩⟩
    · rintro ⟨hbytes, hchain⟩
      obtain ⟨hb, hbytes⟩ := List.forall_mem_cons.mp hbytes
      obtain ⟨hhead, hchain⟩ := List.isChain_cons.mp hchain
      exact ⟨⟨hb, hhead⟩, hbytes, hchain⟩

namespace NoCtrl

variable {s t : List UInt8}

theorem left (h : NoCtrl (s ++ t)) : NoCtrl s :=
  ⟨fun b hb => h.bytes b (List.mem_append_left t hb), h.neighbours.left_of_append⟩

theorem right (h : NoCtrl (s ++ t)) : NoCtrl t :=
  ⟨fun b hb => h.bytes b (List.mem_append_right s hb), h.neighbours.right_of_append⟩

theorem of_initial (h : NoCtrl t) (hpre : s <+: t) : NoCtrl s := by
  obtain ⟨u, rfl⟩ := hpre
  exact h.left

theorem take (h : NoCtrl s) (n : ℕ) : NoCtrl (s.take n) := h.of_initial (List.take_prefix n s)

theorem drop (h : NoCtrl s) (n : ℕ) : NoCtrl (s.drop n) := by
  rw [← List.take_append_drop n s] at h
  exact h.right

theorem append (hs : NoCtrl s) (ht : NoCtrl t)
    (hjoin : ∀ x ∈ s.getLast?, ∀ y ∈ t.head?, ¬ SpellsCtrl x y) : NoCtrl (s ++ t) :=
  ⟨fun b hb => (List.mem_append.mp hb).elim (hs.bytes b) (ht.bytes b),
    hs.neighbours.append ht.neighbours hjoin⟩

theorem of_ascii (h : ∀ b ∈ s, 0x20 ≤ b ∧ b < 0x7f) : NoCtrl s := by
  simp only [UInt8.lt_iff_toNat_lt, UInt8.le_iff_toNat_le, UInt8.reduceToNat] at h
  refine ⟨fun b hb hctrl => ?_, ?_⟩
  · have := h b hb
    simp only [IsCtrlByte, UInt8.lt_iff_toNat_lt, ← UInt8.toNat_inj, UInt8.reduceToNat] at hctrl
    omega
  · induction s with
    | nil => exact List.isChain_nil
    | cons a s ih =>
      refine List.isChain_cons.mpr ⟨fun y hy hspell => ?_, ih fun b hb =>
        h b (List.mem_cons_of_mem a hb)⟩
      have := h a List.mem_cons_self
      obtain ⟨rfl, -⟩ := hspell
      simp at this

end NoCtrl

theorem hexDigit_ascii {n : ℕ} (h : n < 16) : 0x20 ≤ hexDigit n ∧ hexDigit n < 0x7f := by
  revert n
  decide

theorem escapeCtrlByte_ascii (c : UInt8) : ∀ b ∈ escapeCtrlByte c, 0x20 ≤ b ∧ b < 0x7f := by
  have hhigh : c.toNat / 16 < 16 := by
    have := c.toNat_lt
    omega
  have hlow : c.toNat % 16 < 16 := Nat.mod_lt _ (by decide)
  unfold escapeCtrlByte
  split_ifs
  · exact List.forall_mem_cons.mpr ⟨by decide, List.forall_mem_singleton.mpr (by decide)⟩
  · exact List.forall_mem_cons.mpr ⟨by decide, List.forall_mem_singleton.mpr (by decide)⟩
  · exact List.forall_mem_cons.mpr ⟨by decide, List.forall_mem_singleton.mpr (by decide)⟩
  · intro b hb
    simp only [List.mem_cons, List.not_mem_nil, or_false] at hb
    rcases hb with rfl | rfl | rfl | rfl
    · decide
    · decide
    · exact hexDigit_ascii hhigh
    · exact hexDigit_ascii hlow

theorem escapeCtrlByte_head (c : UInt8) : (escapeCtrlByte c).head? = some 0x5c := by
  unfold escapeCtrlByte
  split_ifs <;> rfl

/-- The escaped string starts with a backslash, or as the string does. -/
theorem head_pieces {p : List UInt8} {y : UInt8} (h : y ∈ (pieces p).flatten.head?) :
    y = 0x5c ∨ y ∈ p.head? := by
  cases p with
  | nil => simp [pieces] at h
  | cons b s =>
    rw [pieces] at h
    cases hctrl : ctrlSeqLen (b :: s) with
    | none =>
      rw [hctrl] at h
      exact Or.inr h
    | some found =>
      rw [hctrl] at h
      rw [List.flatten_cons, List.head?_append, escapeCtrlByte_head] at h
      exact Or.inl (Option.some.inj h).symm

/-- Escaping every control leaves none, and makes none of what stood around them. -/
theorem noCtrl_pieces (p : List UInt8) : NoCtrl (pieces p).flatten := by
  induction p using pieces.induct with
  | case1 =>
    rw [pieces]
    exact ⟨by simp, List.isChain_nil⟩
  | case2 b s h ih =>
    obtain ⟨hb, hhead⟩ := ctrlSeqLen_eq_none_iff.mp h
    rw [pieces_of_none h, List.flatten_cons, List.singleton_append]
    refine ⟨List.forall_mem_cons.mpr ⟨hb, ih.bytes⟩, List.isChain_cons.mpr ⟨?_, ih.neighbours⟩⟩
    intro y hy
    rcases head_pieces hy with rfl | hy
    · rintro ⟨-, hlow, -⟩
      exact absurd hlow (by decide)
    · exact hhead y hy
  | case3 b s n cp h ih =>
    rw [pieces, h]
    rw [List.flatten_cons]
    refine (NoCtrl.of_ascii (escapeCtrlByte_ascii cp)).append ih ?_
    rintro x hx y - ⟨rfl, -⟩
    exact absurd (escapeCtrlByte_ascii cp _ (List.mem_of_mem_getLast? hx)).2 (by decide)

theorem length_pieces_le (p : List UInt8) : (pieces p).flatten.length ≤ 4 * p.length := by
  induction p using pieces.induct with
  | case1 => simp [pieces]
  | case2 b s h ih =>
    rw [pieces_of_none h, List.flatten_cons, List.length_append, List.length_singleton,
      List.length_cons]
    omega
  | case3 b s n cp h ih =>
    have hesc := (escapeCtrlByte_length cp).2
    rw [List.length_drop] at ih
    rw [pieces, h]
    simp only [List.flatten_cons, List.length_append, List.length_cons]
    omega

theorem sanitizeCtrl_eq (s : CString) {outSz : ℕ} (h : 0 < outSz) :
    sanitizeCtrl s outSz = some (fitting (outSz - 1) (pieces s.bytes)) := by
  rw [sanitizeCtrl, if_neg (by omega), sanitizeLoop_eq outSz s.bytes [] h]
  simp

theorem NoCtrl.zero_notMem {s : List UInt8} (h : NoCtrl s) : 0 ∉ s := fun hmem =>
  h.bytes 0 hmem (Or.inl (by decide))

/-- `snprintf()` of a string: what stands before the NUL, nothing into no buffer. -/
def snprintf (outLen : ℕ) (s : List UInt8) : Option (List UInt8) :=
  if outLen = 0 then none else some (s.take (outLen - 1))

/-- A byte that continues a UTF-8 character, by its two high bits. -/
def continues (b : UInt8) : Bool := b &&& 0xc0 == 0x80

def cutHead (path : List UInt8) : ℕ → ℕ
  | 0 => 0
  | head + 1 => if continues (byteAt path (head + 1)) then cutHead path head else head + 1

def cutTail (path : List UInt8) : ℕ → ℕ
  | 0 => 0
  | tail + 1 =>
    if continues (byteAt path (path.length - (tail + 1))) then cutTail path tail else tail + 1

def ellipsis : List UInt8 := [0xe2, 0x80, 0xa6]

def ellipsizePath (path : List UInt8) (outLen : ℕ) (cols : ℤ) : Option (List UInt8) :=
  let cols := (max cols 8).toNat
  if path.length ≤ cols then snprintf outLen path
  else
    let head := (cols - 1) * 2 / 5
    let tail := cols - 1 - head
    snprintf outLen (path.take (cutHead path head) ++ ellipsis ++
      path.drop (path.length - cutTail path tail))

def ELIDE_MIN_CAP : ℕ := 16

def progressCopyPath (cap : ℕ) (src : List UInt8) : Option (List UInt8) :=
  if cap = 0 then none
  else if cap ≤ src.length ∧ ELIDE_MIN_CAP ≤ cap then ellipsizePath src cap ((cap : ℤ) - 3)
  else some (src.take (min src.length (cap - 1)))

theorem noCtrl_of_snprintf {outLen : ℕ} {s out : List UInt8} (h : NoCtrl s)
    (hout : snprintf outLen s = some out) : NoCtrl out := by
  unfold snprintf at hout
  split at hout
  · cases hout
  · obtain rfl := Option.some.inj hout
    exact h.take _

theorem noCtrl_ellipsis : NoCtrl ellipsis := by
  rw [← hasCtrl_eq_false_iff]
  decide

/-- Eliding the middle of a string without controls makes none. -/
theorem noCtrl_ellipsizePath {path out : List UInt8} {outLen : ℕ} {cols : ℤ} (h : NoCtrl path)
    (hout : ellipsizePath path outLen cols = some out) : NoCtrl out := by
  unfold ellipsizePath at hout
  dsimp only at hout
  split at hout
  · exact noCtrl_of_snprintf h hout
  · refine noCtrl_of_snprintf (((h.take _).append noCtrl_ellipsis ?_).append (h.drop _) ?_) hout
    · rintro x - y hy ⟨-, -, hhigh⟩
      obtain rfl : (0xe2 : UInt8) = y := Option.some.inj hy
      exact absurd hhigh (by decide)
    · rintro x hx y - ⟨rfl, -, -⟩
      simp [ellipsis] at hx

theorem noCtrl_progressCopyPath {src out : List UInt8} {cap : ℕ} (h : NoCtrl src)
    (hout : progressCopyPath cap src = some out) : NoCtrl out := by
  unfold progressCopyPath at hout
  split_ifs at hout
  · exact noCtrl_ellipsizePath h hout
  · obtain rfl := Option.some.inj hout
    exact h.take _

end Oans
