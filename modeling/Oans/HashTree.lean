import Mathlib.Tactic

/-!
# The hash tree

Duplicate blocks of one window on two structures at once: a list for each digest, and for each file
a tree of its blocks by offset. `insert_hashed_block()` aborts on a block whose offset the file has
already, and otherwise the two structures hold exactly the blocks inserted.
-/

namespace Oans

/-- A loaded block, with the digest of the list it is on for `b_parent`. -/
structure FileBlock (δ : Type*) where
  bFile : ℤ
  bLoff : ℕ
  bParent : δ
  deriving DecidableEq, Repr

structure DupeBlocksList (δ : Type*) where
  dlHash : δ
  dlNumElem : ℕ
  dlList : List (FileBlock δ)

/-- The hash tree beside the block trees of the files, which only its functions change. -/
structure HashTree (δ : Type*) where
  root : List (DupeBlocksList δ)
  numBlocks : ℕ
  numHashes : ℕ
  blockTree : ℤ → List (FileBlock δ)

section BlockTree

variable {δ : Type*}

/-- `insert_block_into_filerec()`: nothing where it aborts. -/
def insertBlockIntoFilerec : List (FileBlock δ) → FileBlock δ → Option (List (FileBlock δ))
  | [], e => some [e]
  | b :: rest, e =>
    if e.bLoff < b.bLoff then some (e :: b :: rest)
    else if b.bLoff < e.bLoff then (insertBlockIntoFilerec rest e).map (b :: ·)
    else none

def ByLoff (blocks : List (FileBlock δ)) : Prop := blocks.Pairwise fun a b => a.bLoff < b.bLoff

theorem insertBlockIntoFilerec_spec {blocks : List (FileBlock δ)} (h : ByLoff blocks)
    {e : FileBlock δ} (hnew : ∀ b ∈ blocks, b.bLoff ≠ e.bLoff) :
    ∃ blocks', insertBlockIntoFilerec blocks e = some blocks' ∧ ByLoff blocks' ∧
      ∀ b, b ∈ blocks' ↔ b = e ∨ b ∈ blocks := by
  induction blocks with
  | nil => exact ⟨[e], rfl, List.pairwise_singleton _ _, by simp⟩
  | cons b rest ih =>
    obtain ⟨hb, hrest⟩ := List.pairwise_cons.mp h
    obtain ⟨hne, hnew⟩ := List.forall_mem_cons.mp hnew
    rw [insertBlockIntoFilerec]
    rcases lt_or_gt_of_ne hne with hlt | hgt
    · obtain ⟨blocks', heq, hsorted, hmem⟩ := ih hrest hnew
      rw [if_neg (by omega), if_pos hlt, heq]
      refine ⟨b :: blocks', rfl, List.pairwise_cons.mpr ⟨fun x hx => ?_, hsorted⟩, fun x => ?_⟩
      · rcases (hmem x).mp hx with rfl | hx
        · exact hlt
        · exact hb x hx
      · rw [List.mem_cons, hmem, List.mem_cons, or_left_comm]
    · rw [if_pos hgt]
      refine ⟨e :: b :: rest, rfl, List.pairwise_cons.mpr ⟨?_, h⟩, fun x => List.mem_cons⟩
      exact List.forall_mem_cons.mpr ⟨hgt, fun x hx => hgt.trans (hb x hx)⟩

end BlockTree

namespace HashTree

variable {δ : Type*}

/-- `init_hash_tree()`, over files without blocks. -/
def init : HashTree δ := ⟨[], 0, 0, fun _ => []⟩

variable [DecidableEq δ]

def findBlockList (tree : HashTree δ) (digest : δ) : Option (DupeBlocksList δ) :=
  tree.root.find? fun l => decide (l.dlHash = digest)

/-- `insert_block_list()` of a new list: nothing where it aborts. -/
def insertBlockList (tree : HashTree δ) (digest : δ) : Option (HashTree δ) :=
  match tree.findBlockList digest with
  | some _ => none
  | none => some { tree with root := tree.root ++ [⟨digest, 0, []⟩], numHashes := tree.numHashes + 1 }

def withBlockList (tree : HashTree δ) (digest : δ) : Option (HashTree δ) :=
  match tree.findBlockList digest with
  | some _ => some tree
  | none => tree.insertBlockList digest

def addToList (root : List (DupeBlocksList δ)) (e : FileBlock δ) : List (DupeBlocksList δ) :=
  root.map fun l =>
    if l.dlHash = e.bParent then
      { l with dlNumElem := l.dlNumElem + 1, dlList := l.dlList ++ [e] }
    else l

/-- `insert_hashed_block()`, with memory to spare. -/
def insertHashedBlock (tree : HashTree δ) (digest : δ) (file : ℤ) (loff : ℕ) :
    Option (HashTree δ) := do
  let e : FileBlock δ := ⟨file, loff, digest⟩
  let tree ← tree.withBlockList digest
  let blocks ← insertBlockIntoFilerec (tree.blockTree file) e
  some
    { root := addToList tree.root e
      numBlocks := tree.numBlocks + 1
      numHashes := tree.numHashes
      blockTree := Function.update tree.blockTree file blocks }

theorem findBlockList_eq_none {tree : HashTree δ} {digest : δ} :
    tree.findBlockList digest = none ↔ digest ∉ tree.root.map DupeBlocksList.dlHash := by
  simp only [findBlockList, List.find?_eq_none, decide_eq_true_eq, List.mem_map, not_exists,
    not_and]

theorem withBlockList_spec (tree : HashTree δ) (digest : δ) :
    (digest ∈ tree.root.map DupeBlocksList.dlHash ∧ tree.withBlockList digest = some tree) ∨
    (digest ∉ tree.root.map DupeBlocksList.dlHash ∧ tree.withBlockList digest = some
      { tree with root := tree.root ++ [⟨digest, 0, []⟩], numHashes := tree.numHashes + 1 }) := by
  by_cases h : digest ∈ tree.root.map DupeBlocksList.dlHash
  · refine Or.inl ⟨h, ?_⟩
    obtain ⟨l, hl⟩ := Option.ne_none_iff_exists'.mp (mt findBlockList_eq_none.mp (not_not_intro h))
    rw [withBlockList, hl]
  · refine Or.inr ⟨h, ?_⟩
    have hnone := findBlockList_eq_none.mpr h
    rw [withBlockList, hnone]
    simp only
    rw [insertBlockList, hnone]

structure Lists (root : List (DupeBlocksList δ)) (blocks : List (FileBlock δ)) : Prop where
  nodup : (root.map DupeBlocksList.dlHash).Nodup
  counted : ∀ l ∈ root, l.dlNumElem = l.dlList.length
  listed : ∀ l ∈ root, l.dlList = blocks.filter fun b => decide (b.bParent = l.dlHash)

structure Trees (blockTree : ℤ → List (FileBlock δ)) (blocks : List (FileBlock δ)) : Prop where
  sorted : ∀ file, ByLoff (blockTree file)
  mem_blockTree : ∀ file b, b ∈ blockTree file ↔ b ∈ blocks ∧ b.bFile = file

structure Holds (tree : HashTree δ) (blocks : List (FileBlock δ)) : Prop extends
    Lists tree.root blocks, Trees tree.blockTree blocks where
  hashes : ∀ d, d ∈ tree.root.map DupeBlocksList.dlHash ↔ d ∈ blocks.map FileBlock.bParent
  numHashes : tree.numHashes = tree.root.length
  numBlocks : tree.numBlocks = blocks.length

theorem holds_init : (init : HashTree δ).Holds [] where
  nodup := List.nodup_nil
  counted := by simp [init]
  listed := by simp [init]
  hashes := by simp [init]
  numHashes := rfl
  numBlocks := rfl
  sorted _ := List.Pairwise.nil
  mem_blockTree := by simp [init]

theorem Lists.snoc {root : List (DupeBlocksList δ)} {blocks : List (FileBlock δ)}
    (h : Lists root blocks) {digest : δ} (hnew : digest ∉ root.map DupeBlocksList.dlHash)
    (hnone : digest ∉ blocks.map FileBlock.bParent) :
    Lists (root ++ [⟨digest, 0, []⟩]) blocks where
  nodup := by
    rw [List.map_append, List.map_singleton]
    exact List.nodup_append.mpr ⟨h.nodup, List.nodup_singleton _, by
      rintro a ha b hb rfl
      rw [List.mem_singleton.mp hb] at ha
      exact hnew ha⟩
  counted l hl := by
    rcases List.mem_append.mp hl with hl | hl
    · exact h.counted l hl
    · rw [List.mem_singleton.mp hl]
      rfl
  listed l hl := by
    rcases List.mem_append.mp hl with hl | hl
    · exact h.listed l hl
    · rw [List.mem_singleton.mp hl]
      refine (List.filter_eq_nil_iff.mpr fun b hb hd => hnone ?_).symm
      exact List.mem_map.mpr ⟨b, hb, of_decide_eq_true hd⟩

theorem map_dlHash_addToList (root : List (DupeBlocksList δ)) (e : FileBlock δ) :
    (addToList root e).map DupeBlocksList.dlHash = root.map DupeBlocksList.dlHash := by
  rw [addToList, List.map_map]
  refine List.map_congr_left fun l _ => ?_
  simp only [Function.comp_apply]
  split <;> rfl

theorem Lists.addToList {root : List (DupeBlocksList δ)} {blocks : List (FileBlock δ)}
    (h : Lists root blocks) (e : FileBlock δ) : Lists (addToList root e) (blocks ++ [e]) where
  nodup := by
    rw [map_dlHash_addToList]
    exact h.nodup
  counted l hl := by
    obtain ⟨l₀, hl₀, rfl⟩ := List.mem_map.mp hl
    have hcount := h.counted l₀ hl₀
    split
    · simp [hcount]
    · exact hcount
  listed l hl := by
    obtain ⟨l₀, hl₀, rfl⟩ := List.mem_map.mp hl
    have hlist := h.listed l₀ hl₀
    split
    · next heq => simp [hlist, heq, List.filter_append]
    · next hne => simp [hlist, List.filter_append, Ne.symm hne]

omit [DecidableEq δ] in
theorem Trees.update {blockTree : ℤ → List (FileBlock δ)} {blocks inFile : List (FileBlock δ)}
    {e : FileBlock δ} (h : Trees blockTree blocks) (hsorted : ByLoff inFile)
    (hmem : ∀ b, b ∈ inFile ↔ b = e ∨ b ∈ blockTree e.bFile) :
    Trees (Function.update blockTree e.bFile inFile) (blocks ++ [e]) where
  sorted file := by
    by_cases hfile : file = e.bFile
    · rw [hfile, Function.update_self]
      exact hsorted
    · rw [Function.update_of_ne hfile]
      exact h.sorted file
  mem_blockTree file b := by
    rw [List.mem_append, List.mem_singleton]
    by_cases hfile : file = e.bFile
    · rw [hfile, Function.update_self, hmem, h.mem_blockTree]
      constructor
      · rintro (rfl | ⟨hb, hfile⟩)
        · exact ⟨Or.inr rfl, rfl⟩
        · exact ⟨Or.inl hb, hfile⟩
      · rintro ⟨hb | rfl, hfile⟩
        · exact Or.inr ⟨hb, hfile⟩
        · exact Or.inl rfl
    · rw [Function.update_of_ne hfile, h.mem_blockTree]
      constructor
      · rintro ⟨hb, rfl⟩
        exact ⟨Or.inl hb, rfl⟩
      · rintro ⟨hb | rfl, rfl⟩
        · exact ⟨hb, rfl⟩
        · exact absurd rfl hfile

/-- A block at an offset new to its file goes to the end of its digest's list. -/
theorem Holds.insertHashedBlock {tree : HashTree δ} {blocks : List (FileBlock δ)}
    (h : tree.Holds blocks) (e : FileBlock δ)
    (hnew : ∀ b ∈ blocks, b.bFile = e.bFile → b.bLoff ≠ e.bLoff) :
    ∃ tree', tree.insertHashedBlock e.bParent e.bFile e.bLoff = some tree' ∧
      tree'.Holds (blocks ++ [e]) := by
  have hfresh : ∀ b ∈ tree.blockTree e.bFile, b.bLoff ≠ e.bLoff := by
    intro b hb
    obtain ⟨hmem, hfile⟩ := (h.mem_blockTree e.bFile b).mp hb
    exact hnew b hmem hfile
  obtain ⟨inFile, hinsert, hsorted, hmem⟩ := insertBlockIntoFilerec_spec (h.sorted e.bFile) hfresh
  obtain ⟨tree₁, hwith, hlists, hhashes, hnum, hblocks, htree⟩ : ∃ tree₁,
      tree.withBlockList e.bParent = some tree₁ ∧ Lists tree₁.root blocks ∧
      (∀ d, d ∈ tree₁.root.map DupeBlocksList.dlHash ↔
        d = e.bParent ∨ d ∈ blocks.map FileBlock.bParent) ∧
      tree₁.numHashes = tree₁.root.length ∧ tree₁.numBlocks = tree.numBlocks ∧
      tree₁.blockTree = tree.blockTree := by
    rcases tree.withBlockList_spec e.bParent with ⟨hin, heq⟩ | ⟨hnot, heq⟩
    · refine ⟨tree, heq, h.toLists, fun d => ?_, h.numHashes, rfl, rfl⟩
      rw [h.hashes]
      refine ⟨Or.inr, ?_⟩
      rintro (rfl | hd)
      · exact (h.hashes _).mp hin
      · exact hd
    · refine ⟨_, heq, h.toLists.snoc hnot (mt (h.hashes _).mpr hnot), fun d => ?_, ?_, rfl, rfl⟩
      · rw [List.map_append, List.mem_append, h.hashes, or_comm]
        simp
      · simp [h.numHashes]
  refine ⟨⟨addToList tree₁.root e, tree₁.numBlocks + 1, tree₁.numHashes,
    Function.update tree₁.blockTree e.bFile inFile⟩, ?_, ?_⟩
  · simp only [HashTree.insertHashedBlock, hwith, Option.bind_eq_bind, Option.bind_some, htree,
      hinsert]
  · have htrees := h.toTrees.update hsorted hmem
    rw [← htree] at htrees
    refine
      { toLists := hlists.addToList e
        toTrees := htrees
        hashes := fun d => ?_
        numHashes := by simpa [HashTree.addToList] using hnum
        numBlocks := by simp [hblocks, h.numBlocks] }
    rw [map_dlHash_addToList, hhashes, List.map_append, List.mem_append, or_comm]
    simp

end HashTree

end Oans
