import Mathlib.Data.Set.Finite.List
import Siathos.Fs.Table
import Siathos.Fs.Tree
import Siathos.Lib.Run

/-!
# The node table refines the tree

Each operation on the table does to its view what `Fs.Ramfs` says, and that is a step of the tree. The
two invariants, of the buffers and of the paths, hold in every run from `fs_init`.
-/

open Lib

namespace Siathos.Fs.Table

/-! ## Memory -/

section

variable {heap : Heap} {ptr : Option Nat} {bs : List UInt8}

theorem copyIn_other {a : Nat} (h : ptr ≠ some a) :
    copyIn ptr (some bs) bs.length heap a = heap a := by
  unfold copyIn memcpy
  split
  · rfl
  · split
    · rfl
    · exact Function.update_of_ne (fun heq => h (by rw [heq])) _ _

theorem copyIn_block (bs : List UInt8) {a : Nat} {block : List UInt8} (hblock : heap a = some block)
    (hlen : bs.length ≤ block.length) :
    ∃ block', copyIn (some a) (some bs) bs.length heap a = some block' ∧
      block'.length = block.length ∧ block'.take bs.length = bs := by
  unfold copyIn memcpy
  by_cases hempty : bs.length = 0
  · simp only [hempty, if_true]
    refine ⟨block, hblock, rfl, ?_⟩
    simpa using (List.length_eq_zero_iff.mp hempty).symm
  · simp only [hempty, if_false, Function.update_self, hblock, Option.map_some, List.take_length]
    refine ⟨_, rfl, ?_, List.take_left⟩
    simp
    omega

end

theorem le_grownCapacity_size {size cap fuel : Nat} (hcap : 0 < cap) (hfuel : size ≤ cap + fuel) :
    size ≤ grownCapacity size cap fuel := by
  induction fuel generalizing cap with
  | zero => simpa [grownCapacity] using hfuel
  | succ fuel ih =>
    unfold grownCapacity
    split
    · apply ih
      · omega
      · omega
    · omega

/-! ## Each operation, seen through the view -/

/-- The operation keeps the buffers in order, and its view is that of the operation on nodes. -/
def Refines (r : Ramfs × Bool) (ns : Nodes × Bool) : Prop :=
  BuffersInv r.1 ∧ ns = (nodesOf r.1, r.2)

theorem claimSlot_data (n : Slot) (hn : n.data = none) (slots : List Slot) :
    ((claimSlot n slots).filterMap (·.data)).Sublist (slots.filterMap (·.data)) := by
  induction slots with
  | nil => simp [claimSlot]
  | cons m rest ih =>
    unfold claimSlot
    split
    · rw [List.filterMap_cons, List.filterMap_cons]
      cases m.data with
      | none => exact ih
      | some a => exact ih.cons_cons a
    · rw [List.filterMap_cons, List.filterMap_cons, hn]
      cases m.data with
      | none => exact List.Sublist.refl _
      | some a => exact List.sublist_cons_self _ _

theorem claimSlot_mem {n m : Slot} {slots : List Slot} (h : m ∈ claimSlot n slots) : m = n ∨ m ∈ slots := by
  induction slots with
  | nil => simp [claimSlot] at h
  | cons k rest ih =>
    unfold claimSlot at h
    split at h
    · rcases List.mem_cons.mp h with rfl | h
      · exact Or.inr List.mem_cons_self
      · exact (ih h).imp_right (List.mem_cons_of_mem _)
    · rcases List.mem_cons.mp h with rfl | h
      · exact Or.inl rfl
      · exact Or.inr (List.mem_cons_of_mem _ h)

theorem claimSlot_count {n : Slot} (hn : n.used = true) {slots : List Slot}
    (hroom : slots.all (·.used) = false) :
    (claimSlot n slots).countP (·.used) = slots.countP (·.used) + 1 := by
  induction slots with
  | nil => simp at hroom
  | cons m rest ih =>
    unfold claimSlot
    by_cases hm : m.used = true
    · have hrest : rest.all (·.used) = false := by simpa [hm] using hroom
      rw [if_pos hm, List.countP_cons, List.countP_cons, ih hrest]
      omega
    · rw [if_neg hm, List.countP_cons, List.countP_cons, if_pos hn, if_neg hm]

section

variable {t : Ramfs} {path : CStr}

theorem fsCreate_refines (h : BuffersInv t) (path : CStr) (type : FsType) :
    Refines (fsCreate t path type) (orError (nodesOf t) (Fs.fsCreate (nodesOf t) path type)) := by
  unfold Refines orError fsCreate Fs.fsCreate
  rw [fsGet_view, Option.isSome_map, all_used_view, parentOk_view]
  split
  · exact ⟨h, rfl⟩
  split
  · exact ⟨h, rfl⟩
  split
  · exact ⟨h, rfl⟩
  next hroom =>
  split
  · exact ⟨h, rfl⟩
  have hroom' : t.slots.all (·.used) = false := by simpa using hroom
  have hview := claimSlot_view t.heap ⟨cut fsNameMax path, none, 0, 0, type, true⟩ t.slots hroom'
  have hnew : view t.heap ⟨cut fsNameMax path, none, 0, 0, type, true⟩ =
      ⟨cut fsNameMax path, [], 0, type, true⟩ := rfl
  refine ⟨⟨?_, ?_, ?_⟩, ?_⟩
  · intro n hn
    rcases claimSlot_mem hn with rfl | hn
    · exact ⟨Nat.le_refl _, fun _ => rfl, by simp⟩
    · exact h.slot n hn
  · exact h.distinct.sublist (claimSlot_data _ rfl _)
  · have hcount := h.count
    dsimp only
    rw [claimSlot_count rfl hroom']
    omega
  · rw [hnew] at hview
    unfold nodesOf
    rw [hview]
    rfl

/-- `fs_write` where the buffer is large enough. -/
theorem fsWrite_inPlace (h : BuffersInv t) {n : Slot} (hn : fsGet t path = some n) {bs : List UInt8}
    (hcap : ¬ n.capacity < bs.length) :
    BuffersInv ⟨updateSlot path (fun n => { n with size := bs.length }) t.slots, t.count,
        copyIn n.data (some bs) bs.length t.heap⟩ ∧
      nodesOf ⟨updateSlot path (fun n => { n with size := bs.length }) t.slots, t.count,
        copyIn n.data (some bs) bs.length t.heap⟩ =
      updateNode path (fun m => { m with data := bs }) (nodesOf t) := by
  obtain ⟨hmem, -, -⟩ := fsGet_mem hn
  have hslot := h.slot n hmem
  apply update_slot h hn
  · refine ⟨Nat.not_lt.mp hcap, hslot.null, fun a ha => ?_⟩
    obtain ⟨block, hblock, hlen⟩ := hslot.block a ha
    obtain ⟨block', hblock', hlen', -⟩ := copyIn_block bs hblock (by omega)
    dsimp only at ha
    rw [ha]
    exact ⟨block', hblock', hlen'.trans hlen⟩
  · unfold view bytes
    congr 1
    cases hdata : n.data with
    | none =>
      have hnull := hslot.null hdata
      have hempty : bs = [] := List.length_eq_zero_iff.mp (by omega)
      simp [hempty]
    | some a =>
      obtain ⟨block, hblock, hlen⟩ := hslot.block a hdata
      obtain ⟨block', hblock', -, htake⟩ := copyIn_block bs hblock (by omega)
      simp [hblock', htake]
  · exact fun a ha => Or.inl ha
  · intro a ha _
    exact copyIn_other ha
  · rfl

/-- `fs_write` with a new buffer, where `kmalloc` gives a block that is not in use. -/
theorem fsWrite_grown (h : BuffersInv t) {n : Slot} (hn : fsGet t path = some n) {bs : List UInt8}
    {cap a : Nat} (fill : Nat → UInt8) (hcap : bs.length ≤ cap) (ha : t.heap a = none) :
    let heap := copyIn (some a) (some bs) bs.length
      (kfree n.data (Function.update t.heap a (some ((List.range cap).map fill))))
    let f := fun n : Slot => { n with data := some a, capacity := cap, size := bs.length }
    BuffersInv ⟨updateSlot path f t.slots, t.count, heap⟩ ∧
      nodesOf ⟨updateSlot path f t.slots, t.count, heap⟩ =
        updateNode path (fun m => { m with data := bs, capacity := cap }) (nodesOf t) := by
  intro heap f
  obtain ⟨hmem, -, -⟩ := fsGet_mem hn
  have hslot := h.slot n hmem
  -- the old buffer is another block
  have hold : ∀ b, n.data = some b → b ≠ a := by
    rintro b hb rfl
    obtain ⟨block, hblock, -⟩ := hslot.block b hb
    rw [ha] at hblock
    simp at hblock
  have hfresh : kfree n.data (Function.update t.heap a (some ((List.range cap).map fill))) a =
      some ((List.range cap).map fill) := by
    unfold kfree
    cases hdata : n.data with
    | none => exact Function.update_self _ _ _
    | some b =>
      dsimp only
      rw [Function.update_of_ne (hold b hdata).symm, Function.update_self]
  obtain ⟨block', hblock', hlen', htake⟩ := copyIn_block bs hfresh (by simpa using hcap)
  have hheap : heap a = some block' := hblock'
  apply update_slot h hn
  · refine ⟨hcap, by simp, ?_⟩
    rintro b hb
    obtain rfl := Option.some.inj hb
    exact ⟨block', hheap, by simpa using hlen'⟩
  · unfold view bytes
    simp only [Option.bind_some, f, hheap, Option.getD_some, htake]
  · intro b hb
    obtain rfl := Option.some.inj hb
    exact Or.inr ha
  · intro b hb hlive
    have hne : b ≠ a := by
      rintro rfl
      exact hlive ha
    have hcopy : heap b = kfree n.data (Function.update t.heap a (some ((List.range cap).map fill))) b :=
      copyIn_other (fun heq => hne (Option.some.inj heq).symm)
    rw [hcopy]
    unfold kfree
    cases hdata : n.data with
    | none => exact Function.update_of_ne hne _ _
    | some c =>
      dsimp only
      rw [Function.update_of_ne, Function.update_of_ne hne]
      rintro rfl
      exact hb hdata
  · rfl

/-- What `kmalloc` gives is not in use. -/
def Fresh (t : Ramfs) (mem : Kmalloc) : Prop := ∀ m ∈ mem, t.heap m.1 = none

instance (t : Ramfs) (mem : Kmalloc) : Decidable (Fresh t mem) :=
  inferInstanceAs (Decidable (∀ m ∈ mem, _))

theorem fsWrite_refines (h : BuffersInv t) {mem : Kmalloc} (hmem : Fresh t mem) (path : CStr)
    (bs : List UInt8) :
    Refines (fsWrite mem t path (some bs) bs.length)
      (orError (nodesOf t) (Fs.fsWrite mem.isSome (nodesOf t) path bs)) := by
  unfold Refines orError fsWrite Fs.fsWrite
  rw [fsGet_view]
  split
  · exact ⟨h, rfl⟩
  cases hn : fsGet t path with
  | none => exact ⟨h, rfl⟩
  | some n =>
    dsimp only [Option.map_some]
    have htype : (view t.heap n).type = n.type := rfl
    have hcapacity : (view t.heap n).capacity = n.capacity := rfl
    rw [htype, hcapacity]
    split
    · exact ⟨h, rfl⟩
    split
    · next hcap =>
      cases hm : mem with
      | none => exact ⟨h, rfl⟩
      | some m =>
        obtain ⟨a, fill⟩ := m
        have hgrown : bs.length ≤ grownCapacity bs.length
            (if n.capacity = 0 then 256 else n.capacity * 2) bs.length := by
          apply le_grownCapacity_size
          · split <;> omega
          · omega
        obtain ⟨hinv, hnodes⟩ := fsWrite_grown h hn fill hgrown (hmem (a, fill) hm)
        exact ⟨hinv, by simp [hnodes]⟩
    · next hcap =>
      obtain ⟨hinv, hnodes⟩ := fsWrite_inPlace h hn hcap
      exact ⟨hinv, by simp [hnodes]⟩

theorem fsRemove_refines (h : BuffersInv t) (path : CStr) :
    Refines (fsRemove t path) (orError (nodesOf t) (Fs.fsRemove (nodesOf t) path)) := by
  unfold Refines orError fsRemove Fs.fsRemove
  rw [fsGet_view, fsHasChildren_view]
  split
  · exact ⟨h, rfl⟩
  cases hn : fsGet t path with
  | none => exact ⟨h, rfl⟩
  | some n =>
    dsimp only [Option.map_some]
    have htype : (view t.heap n).type = n.type := rfl
    rw [htype]
    simp only [Bool.and_eq_true, decide_eq_true_eq]
    split
    · exact ⟨h, rfl⟩
    obtain ⟨hmem, hused, -⟩ := fsGet_mem hn
    have hslot := h.slot n hmem
    have hpos : 0 < t.slots.countP (·.used) := List.countP_pos_iff.mpr ⟨n, hmem, hused⟩
    have hcount := h.count
    obtain ⟨hinv, hnodes⟩ := update_slot h hn
      (f := fun n => { n with used := false, data := none, size := 0, capacity := 0 })
      (g := fun n => { n with used := false, data := [], capacity := 0 })
      (kfree n.data t.heap) (t.count - 1)
      ⟨Nat.le_refl _, fun _ => rfl, by simp⟩ rfl (by simp)
      (by
        intro a ha _
        unfold kfree
        cases hdata : n.data with
        | none => rfl
        | some b =>
          apply Function.update_of_ne
          rintro rfl
          exact ha hdata)
      (by simp [hused]; omega)
    exact ⟨hinv, by simp [hnodes]⟩

theorem fsWrite_source {n : Slot} (h : SlotOk t.heap n) (mem : Kmalloc) (t' : Ramfs) (path : CStr) :
    fsWrite mem t' path ((n.data.bind t.heap).map (·.take n.size)) n.size =
      fsWrite mem t' path (some (bytes t.heap n)) (bytes t.heap n).length := by
  rw [h.bytes_length]
  unfold bytes
  cases hdata : n.data with
  | none =>
    have hnull := h.null hdata
    have hsize := h.size
    have hzero : n.size = 0 := by omega
    simp [fsWrite, copyIn, hzero]
  | some a =>
    obtain ⟨block, hblock, -⟩ := h.block a hdata
    simp [hblock]

theorem fsCreate_heap (t : Ramfs) (path : CStr) (type : FsType) : (fsCreate t path type).1.heap = t.heap := by
  unfold fsCreate
  split
  · rfl
  split
  · rfl
  split
  · rfl
  split <;> rfl

theorem fsCopy_refines (h : BuffersInv t) {mem : Kmalloc} (hmem : Fresh t mem) (src dst : CStr) :
    Refines (fsCopy mem t src dst) (Fs.fsCopy mem.isSome (nodesOf t) src dst) := by
  unfold Refines fsCopy Fs.fsCopy
  rw [fsGet_view, fsGet_view, Option.isSome_map]
  cases hs : fsGet t src with
  | none => exact ⟨h, rfl⟩
  | some s =>
    dsimp only [Option.map_some]
    have htype : (view t.heap s).type = s.type := rfl
    rw [htype]
    split
    · exact ⟨h, rfl⟩
    split
    · exact ⟨h, rfl⟩
    have hslot := h.slot s (fsGet_mem hs).1
    have hcreate := fsCreate_refines h dst .file
    have hheap := fsCreate_heap t dst .file
    revert hcreate hheap
    unfold Refines
    generalize fsCreate t dst .file = r
    obtain ⟨t₁, ok⟩ := r
    rintro ⟨h₁, hnodes⟩ hheap
    cases hc : Fs.fsCreate (nodesOf t) dst .file with
    | none =>
      rw [hc] at hnodes
      simp only [orError, Option.getD_none, Option.isSome_none, Prod.mk.injEq] at hnodes
      obtain ⟨hnodes, rfl⟩ := hnodes
      exact ⟨h₁, by rw [← hnodes]⟩
    | some ns₁ =>
      rw [hc] at hnodes
      simp only [orError, Option.getD_some, Option.isSome_some, Prod.mk.injEq] at hnodes
      obtain ⟨rfl, rfl⟩ := hnodes
      dsimp only at hheap h₁ ⊢
      rw [hheap, fsWrite_source hslot]
      have hfresh : Fresh t₁ mem := by
        intro m hm
        rw [hheap]
        exact hmem m hm
      obtain ⟨h₂, hwrite⟩ := fsWrite_refines h₁ hfresh dst (bytes t.heap s)
      refine ⟨h₂, ?_⟩
      rw [← hwrite]
      have hdata : (view t.heap s).data = bytes t.heap s := rfl
      rw [hdata]
      cases Fs.fsWrite mem.isSome (nodesOf t₁) dst (bytes t.heap s) <;> rfl

theorem fsMove_refines (h : BuffersInv t) {mem : Kmalloc} (hmem : Fresh t mem) (src dst : CStr) :
    Refines (fsMove mem t src dst) (Fs.fsMove mem.isSome (nodesOf t) src dst) := by
  obtain ⟨h₁, hcopy⟩ := fsCopy_refines h hmem src dst
  unfold Refines fsMove Fs.fsMove
  rw [hcopy]
  revert h₁
  generalize fsCopy mem t src dst = r
  obtain ⟨t₁, ok⟩ := r
  intro h₁
  cases ok with
  | false => exact ⟨h₁, rfl⟩
  | true =>
    obtain ⟨h₂, hremove⟩ := fsRemove_refines h₁ src
    refine ⟨h₂, ?_⟩
    dsimp only at hremove ⊢
    rw [← hremove]
    cases Fs.fsRemove (nodesOf t₁) src <;> rfl

theorem fsRead_view (t : Ramfs) (path : CStr) (max : Nat) :
    fsRead t path max = Fs.fsRead (nodesOf t) path max := by
  unfold fsRead Fs.fsRead
  rw [fsGet_view]
  cases fsGet t path with
  | none => rfl
  | some n =>
    dsimp only [Option.map_some]
    have htype : (view t.heap n).type = n.type := rfl
    rw [htype]
    split
    · rfl
    · unfold view bytes
      rw [List.take_take, Nat.min_comm]

end

/-! ## Runs -/

/-- The operations, with what `kmalloc` returns to each, and what others do to the heap meanwhile. -/
inductive Op
  | create (path : CStr) (type : FsType)
  | write (path : CStr) (data : List UInt8) (mem : Kmalloc)
  | remove (path : CStr)
  | copy (src dst : CStr) (mem : Kmalloc)
  | move (src dst : CStr) (mem : Kmalloc)
  | outside (heap : Heap)

def apply (t : Ramfs) : Op → Ramfs × Bool
  | .create path type => fsCreate t path type
  | .write path data mem => fsWrite mem t path (some data) data.length
  | .remove path => fsRemove t path
  | .copy src dst mem => fsCopy mem t src dst
  | .move src dst mem => fsMove mem t src dst
  | .outside heap => ({ t with heap }, false)

/-- Paths are absolute and fit a slot, `kmalloc` gives fresh blocks, and nobody else touches a
buffer of the table. -/
def Allowed (t : Ramfs) : Op → Prop
  | .create path _ => Absolute path
  | .write path _ mem => Absolute path ∧ Fresh t mem
  | .remove path => Absolute path
  | .copy src dst mem => Absolute src ∧ Absolute dst ∧ Fresh t mem
  | .move src dst mem => Absolute src ∧ Absolute dst ∧ Fresh t mem
  | .outside heap => ∀ n ∈ t.slots, ∀ a ∈ n.data, heap a = t.heap a

instance (t : Ramfs) : (o : Op) → Decidable (Allowed t o)
  | .create path _ | .remove path => inferInstanceAs (Decidable (Absolute path))
  | .write path _ mem => inferInstanceAs (Decidable (Absolute path ∧ Fresh t mem))
  | .copy src dst mem | .move src dst mem =>
    inferInstanceAs (Decidable (Absolute src ∧ Absolute dst ∧ Fresh t mem))
  | .outside heap => inferInstanceAs (Decidable (∀ n ∈ t.slots, ∀ a ∈ n.data, heap a = t.heap a))

def Op.map : Op → Option MapOp
  | .create path type => some (.create path type)
  | .write path data _ => some (.write path data)
  | .remove path => some (.remove path)
  | .copy src dst _ => some (.copy src dst)
  | .move src dst _ => some (.move src dst)
  | .outside _ => none

abbrev Step := Exec Allowed fun t o => (apply t o).1

/-- The tree that the table stands for. -/
def tree (t : Ramfs) : Tree := treeOf (nodesOf t)

structure TableInv (t : Ramfs) : Prop where
  buffers : BuffersInv t
  paths : PathsInv (nodesOf t)

theorem TableInv.init (heap : Heap) : TableInv (fsInit heap) := by
  refine ⟨⟨?_, ?_, ?_⟩, ?_⟩
  · intro n hn
    rw [List.eq_of_mem_replicate hn]
    exact ⟨Nat.le_refl _, fun _ => rfl, by simp⟩
  · simp [fsInit]
  · simp [fsInit, List.countP_replicate]
  · have hnodes : nodesOf (fsInit heap) = Fs.fsInit := by
      simp [nodesOf, fsInit, Fs.fsInit, view, bytes]
    rw [hnodes]
    exact PathsInv.init

theorem step_of_view {t : Ramfs} {r : Ramfs × Bool} {ns : Nodes × Bool} {m : MapOp} (hr : Refines r ns)
    (hns : PathsInv ns.1 ∧ (ns.2 = true → Tree.Step (tree t) m (treeOf ns.1))) :
    TableInv r.1 ∧ (r.2 = true → Tree.Step (tree t) m (tree r.1)) := by
  obtain ⟨hbuffers, rfl⟩ := hr
  exact ⟨⟨hbuffers, hns.1⟩, hns.2⟩

theorem orError_step {ns : Nodes} (h : PathsInv ns) {r : Option Nodes} {m : MapOp}
    (hr : ∀ ns', r = some ns' → PathsInv ns' ∧ Tree.Step (treeOf ns) m (treeOf ns')) :
    PathsInv (orError ns r).1 ∧
      ((orError ns r).2 = true → Tree.Step (treeOf ns) m (treeOf (orError ns r).1)) := by
  cases r with
  | none => exact ⟨h, by simp [orError]⟩
  | some ns' => exact ⟨(hr ns' rfl).1, fun _ => (hr ns' rfl).2⟩

theorem apply_step {t : Ramfs} (h : TableInv t) {o : Op} (ho : Allowed t o) :
    TableInv (apply t o).1 ∧
      ((apply t o).2 = true → ∃ m, o.map = some m ∧ Tree.Step (tree t) m (tree (apply t o).1)) := by
  cases o with
  | create path type =>
    have hstep := step_of_view (fsCreate_refines h.buffers path type)
      (orError_step (m := .create path type) h.paths fun ns' hc => by
        obtain ⟨hpaths, htree, hvacant⟩ := fsCreate_step h.paths ho hc
        exact ⟨hpaths, htree ▸ Tree.Step.create type hvacant⟩)
    exact ⟨hstep.1, fun hok => ⟨_, rfl, hstep.2 hok⟩⟩
  | write path data mem =>
    have hstep := step_of_view (fsWrite_refines h.buffers ho.2 path data)
      (orError_step (m := .write path data) h.paths fun ns' hw => by
        obtain ⟨hpaths, htree, old, hold⟩ := fsWrite_step h.paths hw
        exact ⟨hpaths, htree ▸ Tree.Step.write data hold⟩)
    exact ⟨hstep.1, fun hok => ⟨_, rfl, hstep.2 hok⟩⟩
  | remove path =>
    have hstep := step_of_view (fsRemove_refines h.buffers path)
      (orError_step (m := .remove path) h.paths fun ns' hr => by
        obtain ⟨hpaths, hstep, -⟩ := fsRemove_step h.paths hr
        exact ⟨hpaths, hstep⟩)
    exact ⟨hstep.1, fun hok => ⟨_, rfl, hstep.2 hok⟩⟩
  | copy src dst mem =>
    obtain ⟨hpaths, hok⟩ := fsCopy_step src h.paths ho.2.1 mem.isSome
    have hstep := step_of_view (m := .copy src dst) (fsCopy_refines h.buffers ho.2.2 src dst)
      ⟨hpaths, fun hret => by
        obtain ⟨data, hsrc, hvacant, htree⟩ := hok hret
        exact htree ▸ Tree.Step.copy hsrc hvacant⟩
    exact ⟨hstep.1, fun hret => ⟨_, rfl, hstep.2 hret⟩⟩
  | move src dst mem =>
    have hstep := step_of_view (fsMove_refines h.buffers ho.2.2 src dst)
      (fsMove_step src h.paths ho.2.1 mem.isSome)
    exact ⟨hstep.1, fun hret => ⟨_, rfl, hstep.2 hret⟩⟩
  | outside heap =>
    have hnodes : nodesOf { t with heap } = nodesOf t :=
      List.map_congr_left fun n hn => view_congr (ho n hn)
    refine ⟨⟨⟨?_, h.buffers.distinct, h.buffers.count⟩, ?_⟩, by simp [apply]⟩
    · intro n hn
      exact (h.buffers.slot n hn).congr (ho n hn)
    · exact hnodes ▸ h.paths

theorem apply_failed {t : Ramfs} (h : TableInv t) {o : Op} (ho : Allowed t o)
    (hfail : (apply t o).2 = false) {q : CStr} (hq : tree t q ≠ none) :
    tree (apply t o).1 q = tree t q := by
  have hsame : ∀ {r : Ramfs × Bool} {ns : Option Nodes}, Refines r (orError (nodesOf t) ns) →
      r.2 = false → tree r.1 q = tree t q := by
    rintro r ns ⟨-, hns⟩ hr
    have hok := congrArg Prod.snd hns
    have hnodes := congrArg Prod.fst hns
    dsimp only at hok hnodes
    unfold tree
    rw [← hnodes]
    cases ns with
    | none => rfl
    | some ns' =>
      rw [hr] at hok
      simp [orError] at hok
  cases o with
  | create path type => exact hsame (fsCreate_refines h.buffers path type) hfail
  | write path data mem => exact hsame (fsWrite_refines h.buffers ho.2 path data) hfail
  | remove path => exact hsame (fsRemove_refines h.buffers path) hfail
  | copy src dst mem =>
    obtain ⟨-, hns⟩ := fsCopy_refines h.buffers ho.2.2 src dst
    have hnodes := congrArg Prod.fst hns
    dsimp only at hnodes
    change treeOf (nodesOf (fsCopy mem t src dst).1) q = _
    rw [← hnodes]
    exact fsCopy_keeps ho.2.1 mem.isSome hq
  | move src dst mem =>
    obtain ⟨-, hns⟩ := fsMove_refines h.buffers ho.2.2 src dst
    have hok := congrArg Prod.snd hns
    have hnodes := congrArg Prod.fst hns
    dsimp only at hnodes
    change treeOf (nodesOf (fsMove mem t src dst).1) q = _
    rw [← hnodes, fsMove_failed (hok.trans hfail)]
    exact fsCopy_keeps ho.2.1 mem.isSome hq
  | outside heap =>
    have hnodes : nodesOf { t with heap } = nodesOf t :=
      List.map_congr_left fun n hn => view_congr (ho n hn)
    exact congrArg (treeOf · q) hnodes

theorem tableInv_run {heap : Heap} {ops : List Op} {t : Ramfs} (h : Run Step (fsInit heap) ops t) :
    TableInv t :=
  h.invariant (fun _ _ _ ht ⟨ho, hu⟩ => hu ▸ (apply_step ht ho).1) (TableInv.init heap)

/-! ## What the table represents -/

/-- The table is the map `m`: its used slots are the paths of `m`, each once. -/
structure Represents (t : Ramfs) (m : Tree) : Prop where
  node : ∀ q v, m q = some v ↔
    ∃ n ∈ t.slots, n.used = true ∧ n.path = q ∧ (n.type, bytes t.heap n) = v
  finite : {q | m q ≠ none}.Finite
  unique : ∀ (i j : Nat) (n k : Slot), t.slots[i]? = some n → t.slots[j]? = some k → n.used = true → k.used = true →
    n.path = k.path → i = j
  parents : ∀ n ∈ t.slots, n.used = true → parent n.path = root ∨
    ∃ d ∈ t.slots, d.used = true ∧ d.type = .dir ∧ d.path = parent n.path
  count : t.count = t.slots.countP (·.used)
  size : ∀ n ∈ t.slots, n.size ≤ n.capacity
  buffers : ∀ (i j : Nat) (n k : Slot) (a : Nat), t.slots[i]? = some n → t.slots[j]? = some k → n.data = some a →
    k.data = some a → i = j

section

variable {α β : Type}

theorem eq_of_filter_length {l : List α} {p : α → Bool} (h : (l.filter p).length ≤ 1) {i j : Nat}
    {a b : α} (hi : l[i]? = some a) (hj : l[j]? = some b) (ha : p a = true) (hb : p b = true) :
    i = j := by
  induction l generalizing i j with
  | nil => simp at hi
  | cons c rest ih =>
    rw [List.filter_cons] at h
    -- where the head passes, nothing else does
    have hhead : p c = true → ∀ (k : Nat) (d : α), rest[k]? = some d → p d = true → False := by
      intro hc k d hk hd
      have hpos : 0 < (rest.filter p).length :=
        List.length_pos_of_mem (List.mem_filter.mpr ⟨List.mem_of_getElem? hk, hd⟩)
      rw [if_pos hc, List.length_cons] at h
      omega
    have hrest : (rest.filter p).length ≤ 1 := by
      split at h
      · rw [List.length_cons] at h
        omega
      · exact h
    cases i with
    | zero =>
      obtain rfl := Option.some.inj hi
      cases j with
      | zero => rfl
      | succ j => exact (hhead ha j b hj hb).elim
    | succ i =>
      cases j with
      | zero =>
        obtain rfl := Option.some.inj hj
        exact (hhead hb i a hi ha).elim
      | succ j => exact congrArg Nat.succ (ih hrest hi hj)

theorem eq_of_filterMap_nodup {l : List α} {f : α → Option β} (h : (l.filterMap f).Nodup) {i j : Nat}
    {a b : α} {x : β} (hi : l[i]? = some a) (hj : l[j]? = some b) (ha : f a = some x)
    (hb : f b = some x) : i = j := by
  induction l generalizing i j with
  | nil => simp at hi
  | cons c rest ih =>
    rw [List.filterMap_cons] at h
    have hhead : f c = some x → ∀ (k : Nat) (d : α), rest[k]? = some d → f d = some x → False := by
      intro hc k d hk hd
      rw [hc] at h
      exact (List.nodup_cons.mp h).1 (List.mem_filterMap.mpr ⟨d, List.mem_of_getElem? hk, hd⟩)
    have hrest : (rest.filterMap f).Nodup := by
      split at h
      · exact h
      · exact (List.nodup_cons.mp h).2
    cases i with
    | zero =>
      obtain rfl := Option.some.inj hi
      cases j with
      | zero => rfl
      | succ j => exact (hhead ha j b hj hb).elim
    | succ i =>
      cases j with
      | zero =>
        obtain rfl := Option.some.inj hj
        exact (hhead hb i a hi ha).elim
      | succ j => exact congrArg Nat.succ (ih hrest hi hj)

end

theorem TableInv.tree_some {t : Ramfs} (h : TableInv t) (q : CStr) (v : FsType × List UInt8) :
    tree t q = some v ↔ ∃ n ∈ t.slots, n.used = true ∧ n.path = q ∧ (n.type, bytes t.heap n) = v := by
  unfold tree
  rw [treeOf_some]
  constructor
  · rintro ⟨m, hm, rfl⟩
    rw [fsGet_view, Option.map_eq_some_iff] at hm
    obtain ⟨n, hn, rfl⟩ := hm
    obtain ⟨hmem, hused, hpath⟩ := fsGet_mem hn
    exact ⟨n, hmem, hused, hpath, rfl⟩
  · rintro ⟨n, hmem, hused, rfl, rfl⟩
    refine ⟨view t.heap n, ?_, rfl⟩
    have hone := h.paths.unique n.path
    have hin : view t.heap n ∈ nodesAt (nodesOf t) n.path := by
      unfold nodesAt
      rw [List.mem_filter]
      refine ⟨List.mem_map_of_mem hmem, ?_⟩
      have hview : (view t.heap n).used = true ∧ (view t.heap n).path = n.path := ⟨hused, rfl⟩
      simp [hview]
    rw [fsGet_eq]
    revert hone hin
    generalize nodesAt (nodesOf t) n.path = l
    intro hone hin
    cases l with
    | nil => simp at hin
    | cons m rest =>
      rw [List.length_cons] at hone
      have hrest : rest = [] := List.length_eq_zero_iff.mp (by omega)
      subst hrest
      rw [List.mem_singleton] at hin
      rw [hin]
      rfl

theorem TableInv.represents {t : Ramfs} (h : TableInv t) : Represents t (tree t) := by
  have hnode := h.tree_some
  refine ⟨hnode, ?_, ?_, ?_, h.buffers.count, fun n hn => (h.buffers.slot n hn).size, ?_⟩
  · apply (List.finite_toSet (t.slots.map (·.path))).subset
    intro q hq
    obtain ⟨v, hv⟩ := Option.ne_none_iff_exists'.mp hq
    obtain ⟨n, hn, -, hpath, -⟩ := (hnode q v).mp hv
    exact List.mem_map.mpr ⟨n, hn, hpath⟩
  · intro i j n k hi hj hn hk hpath
    have hone := h.paths.unique n.path
    unfold nodesAt nodesOf at hone
    rw [List.filter_map, List.length_map] at hone
    apply eq_of_filter_length hone hi hj
    · have hview : (view t.heap n).used = true ∧ (view t.heap n).path = n.path := ⟨hn, rfl⟩
      simp [hview]
    · have hview : (view t.heap k).used = true ∧ (view t.heap k).path = n.path := ⟨hk, hpath.symm⟩
      simp [hview]
  · intro n hn hused
    have hsome : tree t n.path = some (n.type, bytes t.heap n) :=
      (hnode _ _).mpr ⟨n, hn, hused, rfl, rfl⟩
    have hdir := h.paths.parents n.path (by
      change tree t n.path ≠ none
      simp [hsome])
    refine hdir.imp_right ?_
    rintro ⟨data, hdata⟩
    obtain ⟨d, hd, hdused, hdpath, hdv⟩ := (hnode _ _).mp hdata
    exact ⟨d, hd, hdused, congrArg Prod.fst hdv, hdpath⟩
  · intro i j n k a hi hj hn hk
    exact eq_of_filterMap_nodup h.buffers.distinct hi hj hn hk

/-! ## Reads -/

theorem fsRead_tree (t : Ramfs) (path : CStr) (max : Nat) :
    fsRead t path max =
      match tree t path with
      | some (.file, data) => some (data.take max)
      | _ => none := by
  rw [fsRead_view]
  unfold Fs.fsRead tree treeOf
  cases Fs.fsGet (nodesOf t) path with
  | none => rfl
  | some n =>
    dsimp only [Option.map_some, content]
    cases n.type <;> rfl

/-- The operation succeeds, and the file at the path is written or goes away. -/
def Disturbs (path : CStr) (t : Ramfs) (o : Op) : Prop :=
  (apply t o).2 = true ∧
    match o with
    | .write p _ _ => p = path
    | .remove p => p = path
    | .move src _ _ => src = path
    | _ => False

theorem undisturbed_step {t : Ramfs} (h : TableInv t) {o : Op} (ho : Allowed t o) {path : CStr}
    (hno : ¬ Disturbs path t o) {v : FsType × List UInt8} (hpath : tree t path = some v) :
    tree (apply t o).1 path = some v := by
  have hsome : tree t path ≠ none := by simp [hpath]
  cases hok : (apply t o).2 with
  | false => rw [apply_failed h ho hok hsome, hpath]
  | true =>
    obtain ⟨m, hm, hstep⟩ := (apply_step h ho).2 hok
    have hvacant : ∀ {q : CStr}, (tree t).Vacant q → path ≠ q := by
      rintro q hq rfl
      exact hsome hq.absent
    unfold Disturbs at hno
    revert hm hstep hno
    generalize tree (apply t o).1 = u
    intro hno hm hstep
    cases o with
    | create p type =>
      obtain rfl := Option.some.inj hm
      rcases hstep with ⟨_, hvac⟩
      rw [Function.update_of_ne (hvacant hvac), hpath]
    | write p data mem =>
      obtain rfl := Option.some.inj hm
      rcases hstep with _ | ⟨_, _⟩
      rw [Function.update_of_ne (fun heq => hno ⟨hok, heq.symm⟩), hpath]
    | remove p =>
      obtain rfl := Option.some.inj hm
      have hne : path ≠ p := fun heq => hno ⟨hok, heq.symm⟩
      rcases hstep with _ | _ | _ | _
      · rw [Function.update_of_ne hne, hpath]
      · rw [Function.update_of_ne hne, hpath]
    | copy src dst mem =>
      obtain rfl := Option.some.inj hm
      rcases hstep with _ | _ | _ | _ | ⟨_, hvac⟩
      rw [Function.update_of_ne (hvacant hvac), hpath]
    | move src dst mem =>
      obtain rfl := Option.some.inj hm
      rcases hstep with _ | _ | _ | _ | _ | ⟨_, hvac⟩
      rw [Function.update_of_ne (fun heq => hno ⟨hok, heq.symm⟩), Function.update_of_ne (hvacant hvac),
        hpath]
    | outside heap => simp [Op.map] at hm

theorem fsRead_last_write {t : Ramfs} (h : TableInv t) {path : CStr} {data : List UInt8} {mem : Kmalloc}
    (ho : Allowed t (.write path data mem)) (hok : (apply t (.write path data mem)).2 = true)
    {ops : List Op} {u : Ramfs}
    (hrun : Run (Guarded (fun t o => ¬ Disturbs path t o) Step) (apply t (.write path data mem)).1 ops u)
    (max : Nat) : fsRead u path max = some (data.take max) := by
  obtain ⟨hinv, hstep⟩ := apply_step h ho
  obtain ⟨m, hm, hstep⟩ := hstep hok
  obtain rfl := Option.some.inj hm
  have hwritten : tree (apply t (.write path data mem)).1 path = some (.file, data) := by
    revert hstep
    generalize tree (apply t (.write path data mem)).1 = v
    intro hstep
    rcases hstep with _ | ⟨_, _⟩
    exact Function.update_self _ _ _
  have hkeep : ∀ s o s', (TableInv s ∧ tree s path = some (.file, data)) →
      Guarded (fun t o => ¬ Disturbs path t o) Step s o s' →
        TableInv s' ∧ tree s' path = some (.file, data) := by
    rintro s o s' ⟨hs, hpath⟩ ⟨hno, hallowed, rfl⟩
    exact ⟨(apply_step hs hallowed).1, undisturbed_step hs hallowed hno hpath⟩
  have hkept := hrun.invariant hkeep ⟨hinv, hwritten⟩
  rw [fsRead_tree, hkept.2]

/-- The table represents a tree, an operation that returns `FS_OK` is its step, and a read gives the last write. -/
theorem fs_refines_tree {heap : Heap} {ops : List Op} {t : Ramfs} (h : Run Step (fsInit heap) ops t) :
    Represents t (tree t) ∧
    (∀ o, Allowed t o → (apply t o).2 = true →
      ∃ m, o.map = some m ∧ Tree.Step (tree t) m (tree (apply t o).1)) ∧
    (∀ path max, fsRead t path max =
      match tree t path with
      | some (.file, data) => some (data.take max)
      | _ => none) ∧
    ∀ path data mem, Allowed t (.write path data mem) → (apply t (.write path data mem)).2 = true →
      ∀ ops u, Run (Guarded (fun t o => ¬ Disturbs path t o) Step) (apply t (.write path data mem)).1 ops u →
        ∀ max, fsRead u path max = some (data.take max) := by
  have hinv := tableInv_run h
  refine ⟨hinv.represents, fun o ho => (apply_step hinv ho).2, fsRead_tree t, ?_⟩
  intro path data mem ho hok ops u hrun max
  exact fsRead_last_write hinv ho hok hrun max

/-- A directory, a file in it, and three bytes. -/
def smallRun : List Op :=
  [.create (ascii "/d") .dir, .create (ascii "/d/a") .file,
    .write (ascii "/d/a") [1, 2, 3] (some (4096, fun _ => 0))]

theorem fs_refines_tree_small :
    let t := smallRun.foldl (fun t o => (apply t o).1) (fsInit fun _ => none)
    Represents t (tree t) ∧ fsRead t (ascii "/d/a") 2 = some [1, 2] := by
  intro t
  have hadmits : Admits Allowed (fun t o => (apply t o).1) (fsInit fun _ => none) smallRun := by
    decide +kernel
  exact ⟨(fs_refines_tree (Run.of_admits hadmits)).1, by decide +kernel⟩

end Siathos.Fs.Table
