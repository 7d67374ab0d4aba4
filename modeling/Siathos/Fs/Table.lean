import Siathos.Fs.Atomic

/-!
# The node table and its buffers (`fs.c`)

The slots of `fs_nodes` point to blocks of the heap. What `kmalloc` gives, an address and what the
block happens to hold, comes with each call. The nodes of `Fs.Ramfs` are a view of the table.
-/

open Lib

namespace Siathos.Fs.Table

/-- The live blocks. -/
abbrev Heap := Nat → Option (List UInt8)

/-- `fs_node_t`, with the pointer to its buffer. -/
structure Slot where
  path : CStr
  data : Option Nat
  size : Nat
  capacity : Nat
  type : FsType
  used : Bool
  deriving DecidableEq, Repr

structure Ramfs where
  slots : List Slot
  count : Nat
  heap : Heap

/-- What `kmalloc` returns. -/
abbrev Kmalloc := Option (Nat × (Nat → UInt8))

def kfree (ptr : Option Nat) (heap : Heap) : Heap :=
  match ptr with
  | none => heap
  | some a => Function.update heap a none

def memcpy (ptr : Option Nat) (bytes : List UInt8) (heap : Heap) : Heap :=
  match ptr with
  | none => heap
  | some a => Function.update heap a ((heap a).map fun block => bytes ++ block.drop bytes.length)

def fsInit (heap : Heap) : Ramfs := ⟨List.replicate fsMaxFiles ⟨[], none, 0, 0, .file, false⟩, 0, heap⟩

def fsGet (t : Ramfs) (path : CStr) : Option Slot :=
  t.slots.find? fun n => n.used && decide (n.path = path)

/-- Changes the slot that `fs_get` finds. -/
def updateSlot (path : CStr) (f : Slot → Slot) : List Slot → List Slot
  | [] => []
  | n :: rest => if n.used && decide (n.path = path) then f n :: rest else n :: updateSlot path f rest

def fsIsDir (t : Ramfs) (path : CStr) : Bool :=
  decide (path = root) || (fsGet t path).any (fun n => n.type = .dir)

def fsHasChildren (t : Ramfs) (path : CStr) : Bool :=
  t.slots.any fun n => n.used && path.isPrefixOf n.path && (n.path.drop path.length).head? == some slash

def parentOk (t : Ramfs) (path : CStr) : Bool :=
  if path.contains slash then
    if (dirname path).isEmpty then decide (path.length ≠ 1)
    else decide ((dirname path).length < fsNameMax) && fsIsDir t (dirname path)
  else true

/-- Takes the first slot that is not used. -/
def claimSlot (n : Slot) : List Slot → List Slot
  | [] => []
  | m :: rest => if m.used then m :: claimSlot n rest else n :: rest

def fsCreate (t : Ramfs) (path : CStr) (type : FsType) : Ramfs × Bool :=
  if path = root then (t, false)
  else if (fsGet t path).isSome then (t, false)
  else if t.slots.all (·.used) then (t, false)
  else if !parentOk t path then (t, false)
  else
    ({ t with
      slots := claimSlot ⟨cut fsNameMax path, none, 0, 0, type, true⟩ t.slots
      count := t.count + 1 }, true)

/-- `if(size && data) memcpy(n->data,data,size)`. A null `data` is no list. -/
def copyIn (ptr : Option Nat) (data : Option (List UInt8)) (size : Nat) (heap : Heap) : Heap :=
  match data with
  | none => heap
  | some bytes => if size = 0 then heap else memcpy ptr (bytes.take size) heap

def fsWrite (mem : Kmalloc) (t : Ramfs) (path : CStr) (data : Option (List UInt8)) (size : Nat) :
    Ramfs × Bool :=
  if size > fsMaxData then (t, false)
  else match fsGet t path with
    | none => (t, false)
    | some n =>
      if n.type = .dir then (t, false)
      else if n.capacity < size then
        let cap := grownCapacity size (if n.capacity = 0 then 256 else n.capacity * 2) size
        match mem with
        | none => (t, false)
        | some (a, fill) =>
          let heap := kfree n.data (Function.update t.heap a (some ((List.range cap).map fill)))
          ({ t with
            slots := updateSlot path (fun n => { n with data := some a, capacity := cap, size }) t.slots
            heap := copyIn (some a) data size heap }, true)
      else
        ({ t with
          slots := updateSlot path (fun n => { n with size }) t.slots
          heap := copyIn n.data data size t.heap }, true)

/-- The bytes of a slot. -/
def bytes (heap : Heap) (n : Slot) : List UInt8 := ((n.data.bind heap).getD []).take n.size

/-- `fs_read` into a buffer of `max` bytes. -/
def fsRead (t : Ramfs) (path : CStr) (max : Nat) : Option (List UInt8) :=
  match fsGet t path with
  | none => none
  | some n =>
    if n.type = .dir then none
    else some (((n.data.bind t.heap).getD []).take (min n.size max))

def fsRemove (t : Ramfs) (path : CStr) : Ramfs × Bool :=
  if path = root then (t, false)
  else match fsGet t path with
    | none => (t, false)
    | some n =>
      if n.type = .dir && fsHasChildren t path then (t, false)
      else
        ({ slots := updateSlot path (fun n => { n with used := false, data := none, size := 0, capacity := 0 })
            t.slots
           count := t.count - 1
           heap := kfree n.data t.heap }, true)

/-- The source keeps its buffer while `fs_write` runs, for the new node has none to free. -/
def fsCopy (mem : Kmalloc) (t : Ramfs) (src dst : CStr) : Ramfs × Bool :=
  match fsGet t src with
  | none => (t, false)
  | some s =>
    if s.type = .dir then (t, false)
    else if (fsGet t dst).isSome then (t, false)
    else match fsCreate t dst .file with
      | (t, false) => (t, false)
      | (t, true) => fsWrite mem t dst ((s.data.bind t.heap).map (·.take s.size)) s.size

def fsMove (mem : Kmalloc) (t : Ramfs) (src dst : CStr) : Ramfs × Bool :=
  match fsCopy mem t src dst with
  | (t, false) => (t, false)
  | (t, true) => fsRemove t src

/-! ## The view -/

def view (heap : Heap) (n : Slot) : FsNode := ⟨n.path, bytes heap n, n.capacity, n.type, n.used⟩

def nodesOf (t : Ramfs) : Nodes := t.slots.map (view t.heap)

theorem view_congr {heap heap' : Heap} {n : Slot} (h : ∀ a, n.data = some a → heap' a = heap a) :
    view heap' n = view heap n := by
  unfold view bytes
  cases hdata : n.data with
  | none => rfl
  | some a => simp [h a hdata]

theorem fsGet_view (t : Ramfs) (path : CStr) :
    Fs.fsGet (nodesOf t) path = (fsGet t path).map (view t.heap) := by
  unfold Fs.fsGet nodesOf fsGet
  rw [List.find?_map]
  rfl

theorem fsIsDir_view (t : Ramfs) (path : CStr) : Fs.fsIsDir (nodesOf t) path = fsIsDir t path := by
  unfold Fs.fsIsDir fsIsDir
  rw [fsGet_view]
  cases fsGet t path <;> rfl

theorem fsHasChildren_view (t : Ramfs) (path : CStr) :
    Fs.fsHasChildren (nodesOf t) path = fsHasChildren t path := by
  unfold Fs.fsHasChildren nodesOf fsHasChildren
  rw [List.any_map]
  rfl

theorem parentOk_view (t : Ramfs) (path : CStr) : Fs.parentOk (nodesOf t) path = parentOk t path := by
  unfold Fs.parentOk parentOk
  rw [fsIsDir_view]

theorem all_used_view (t : Ramfs) : (nodesOf t).all (·.used) = t.slots.all (·.used) := by
  unfold nodesOf
  rw [List.all_map]
  rfl

theorem claimSlot_view (heap : Heap) (n : Slot) (slots : List Slot)
    (hroom : slots.all (·.used) = false) :
    claimNode (view heap n) (slots.map (view heap)) = some ((claimSlot n slots).map (view heap)) := by
  induction slots with
  | nil => simp at hroom
  | cons m rest ih =>
    simp only [List.map_cons, claimNode, claimSlot]
    by_cases hm : m.used = true
    · have hview : (view heap m).used = true := hm
      have hrest : rest.all (·.used) = false := by simpa [hm] using hroom
      rw [if_pos hview, if_pos hm, ih hrest]
      rfl
    · have hview : ¬ (view heap m).used = true := hm
      rw [if_neg hview, if_neg hm]
      rfl

/-! ## The invariant of the buffers -/

/-- The slot's buffer is a live block of its capacity. -/
structure SlotOk (heap : Heap) (n : Slot) : Prop where
  size : n.size ≤ n.capacity
  null : n.data = none → n.capacity = 0
  block : ∀ a, n.data = some a → ∃ block, heap a = some block ∧ block.length = n.capacity

/-- No two slots share a buffer, and `fs_count` is the number of used slots. -/
structure BuffersInv (t : Ramfs) : Prop where
  slot : ∀ n ∈ t.slots, SlotOk t.heap n
  distinct : (t.slots.filterMap (·.data)).Nodup
  count : t.count = t.slots.countP (·.used)

theorem SlotOk.congr {heap heap' : Heap} {n : Slot} (h : SlotOk heap n)
    (hheap : ∀ a, n.data = some a → heap' a = heap a) : SlotOk heap' n := by
  refine ⟨h.size, h.null, fun a ha => ?_⟩
  rw [hheap a ha]
  exact h.block a ha

theorem SlotOk.bytes_length {heap : Heap} {n : Slot} (h : SlotOk heap n) :
    (bytes heap n).length = n.size := by
  have hsize := h.size
  unfold bytes
  cases hdata : n.data with
  | none =>
    have := h.null hdata
    simp
    omega
  | some a =>
    obtain ⟨block, hblock, hlen⟩ := h.block a hdata
    simp [hblock, hlen, hsize]

theorem fsGet_mem {t : Ramfs} {path : CStr} {n : Slot} (h : fsGet t path = some n) :
    n ∈ t.slots ∧ n.used = true ∧ n.path = path := by
  have hp := List.find?_some h
  simp only [Bool.and_eq_true, decide_eq_true_eq] at hp
  exact ⟨List.mem_of_find?_eq_some h, hp⟩

/-- The slots around the one that `fs_get` finds. -/
theorem fsGet_split {slots : List Slot} {path : CStr} {n : Slot}
    (h : (slots.find? fun n => n.used && decide (n.path = path)) = some n) :
    ∃ l r, slots = l ++ n :: r ∧ (∀ f, updateSlot path f slots = l ++ f n :: r) ∧
      ∀ f heap, updateNode path f (slots.map (view heap)) =
        l.map (view heap) ++ f (view heap n) :: r.map (view heap) := by
  induction slots with
  | nil => simp at h
  | cons m rest ih =>
    rw [List.find?_cons] at h
    split at h
    · next hm =>
      obtain rfl := Option.some.inj h
      refine ⟨[], rest, rfl, fun f => ?_, fun f heap => ?_⟩
      · simp [updateSlot, hm]
      · have hview : ((view heap m).used && decide ((view heap m).path = path)) = true := hm
        simp [updateNode, hview]
    · next hm =>
      obtain ⟨l, r, hl, hupdate, hnode⟩ := ih h
      refine ⟨m :: l, r, by rw [hl]; rfl, fun f => ?_, fun f heap => ?_⟩
      · simp [updateSlot, hm, hupdate f]
      · have hview : ((view heap m).used && decide ((view heap m).path = path)) = false := hm
        rw [List.map_cons, updateNode, if_neg (by simp [hview]), hnode f heap]
        rfl

theorem nodup_other {α β : Type} {f : α → Option β} {l r : List α} {x : α} (h : ((l ++ x :: r).filterMap f).Nodup)
    {y : α} (hy : y ∈ l ∨ y ∈ r) {b : β} (hb : f y = some b) : f x ≠ some b := by
  intro hx
  rw [List.filterMap_append, List.filterMap_cons, hx, List.nodup_append, List.nodup_cons] at h
  obtain ⟨-, ⟨hr, -⟩, hlr⟩ := h
  rcases hy with hy | hy
  · exact hlr b (List.mem_filterMap.mpr ⟨y, hy, hb⟩) b List.mem_cons_self rfl
  · exact hr (List.mem_filterMap.mpr ⟨y, hy, hb⟩)

theorem nodup_replace {α β : Type} {f : α → Option β} {l r : List α} {x x' : α}
    (h : ((l ++ x :: r).filterMap f).Nodup) (hnew : ∀ b, f x' = some b → ∀ y, y ∈ l ∨ y ∈ r → f y ≠ some b) :
    ((l ++ x' :: r).filterMap f).Nodup := by
  have hrest : (l.filterMap f ++ r.filterMap f).Nodup := by
    rw [← List.filterMap_append]
    exact h.sublist ((List.Sublist.append_left (List.sublist_cons_self _ _) _).filterMap f)
  rw [List.filterMap_append, List.filterMap_cons]
  cases hx' : f x' with
  | none => exact hrest
  | some b =>
    rw [List.nodup_append] at hrest ⊢
    obtain ⟨hl, hr, hlr⟩ := hrest
    refine ⟨hl, List.nodup_cons.mpr ⟨?_, hr⟩, ?_⟩
    · intro hmem
      obtain ⟨y, hy, hb⟩ := List.mem_filterMap.mp hmem
      exact hnew b hx' y (Or.inr hy) hb
    · intro c hc d hd
      rcases List.mem_cons.mp hd with rfl | hd
      · rintro rfl
        obtain ⟨y, hy, hb⟩ := List.mem_filterMap.mp hc
        exact hnew _ hx' y (Or.inl hy) hb
      · exact hlr c hc d hd

theorem update_slot {t : Ramfs} (h : BuffersInv t) {path : CStr} {n : Slot} (hn : fsGet t path = some n)
    {f : Slot → Slot} {g : FsNode → FsNode} (heap : Heap) (count : Nat)
    (hf : SlotOk heap (f n)) (hview : view heap (f n) = g (view t.heap n))
    (hfresh : ∀ a, (f n).data = some a → n.data = some a ∨ t.heap a = none)
    (hheap : ∀ a, n.data ≠ some a → t.heap a ≠ none → heap a = t.heap a)
    (hcount : count + (if n.used then 1 else 0) = t.count + (if (f n).used then 1 else 0)) :
    BuffersInv ⟨updateSlot path f t.slots, count, heap⟩ ∧
      nodesOf ⟨updateSlot path f t.slots, count, heap⟩ = updateNode path g (nodesOf t) := by
  obtain ⟨l, r, hslots, hupdate, hnode⟩ := fsGet_split hn
  have hdistinct := h.distinct
  rw [hslots] at hdistinct
  have hother : ∀ m, m ∈ l ∨ m ∈ r → ∀ a, m.data = some a → n.data ≠ some a :=
    fun m hm a ha => nodup_other hdistinct hm ha
  have hmem : ∀ m, m ∈ l ∨ m ∈ r → m ∈ t.slots := by
    intro m hm
    rw [hslots, List.mem_append, List.mem_cons]
    rcases hm with hm | hm
    · exact Or.inl hm
    · exact Or.inr (Or.inr hm)
  have hkeeps : ∀ m, m ∈ l ∨ m ∈ r → ∀ a, m.data = some a → heap a = t.heap a := by
    intro m hm a ha
    obtain ⟨block, hblock, -⟩ := (h.slot m (hmem m hm)).block a ha
    exact hheap a (hother m hm a ha) (by simp [hblock])
  refine ⟨⟨?_, ?_, ?_⟩, ?_⟩
  · intro m hm
    rw [hupdate f, List.mem_append, List.mem_cons] at hm
    rcases hm with hm | rfl | hm
    · exact (h.slot m (hmem m (Or.inl hm))).congr (hkeeps m (Or.inl hm))
    · exact hf
    · exact (h.slot m (hmem m (Or.inr hm))).congr (hkeeps m (Or.inr hm))
  · -- the new buffer is the old one, or was not live
    rw [hupdate f]
    refine nodup_replace hdistinct fun a ha m hm hma => ?_
    rcases hfresh a ha with hold | hdead
    · exact hother m hm a hma hold
    · obtain ⟨block, hblock, -⟩ := (h.slot m (hmem m hm)).block a hma
      rw [hdead] at hblock
      simp at hblock
  · have hold := h.count
    rw [hslots, List.countP_append, List.countP_cons] at hold
    rw [hupdate f, List.countP_append, List.countP_cons]
    dsimp only
    omega
  · have hmap : ∀ k : List Slot, (∀ m ∈ k, m ∈ l ∨ m ∈ r) → k.map (view heap) = k.map (view t.heap) := by
      intro k hk
      apply List.map_congr_left
      intro m hm
      exact view_congr (hkeeps m (hk m hm))
    unfold nodesOf
    rw [hnode g, hupdate f, List.map_append, List.map_cons, hview, hmap l fun m hm => Or.inl hm,
      hmap r fun m hm => Or.inr hm]

end Siathos.Fs.Table
