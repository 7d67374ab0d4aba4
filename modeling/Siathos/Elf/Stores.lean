import Siathos.Elf.Exec
import Siathos.Lib.Span

/-!
# What the loader writes

Each turn of the loop over the segments clears the frames that it was given and copies the contents of the segment
there. The copy is as long as the file says, whatever the frames are.
-/

open Lib (Span)
open Siathos.Paging Siathos.Proc.Memory

namespace Siathos.Elf

/-! ## Turns -/

/-- The segments that are loaded, each with the first of the frames that `pmm_alloc` returned for it. -/
def turns (pm : Nat) (img : Nat → BitVec 8) : List Ureg → Vm → List (Ureg × Nat)
  | [], _ => []
  | r :: rest, m =>
    if r.base < userVaddrBase then []
    else
      let (pmm, phys) := pmmAlloc m.pmm .segment r.pages
      if phys = 0 then []
      else
        let m := copied img r phys { m with pmm }
        (r, phys) :: turns pm img rest (mapPages pm r.base phys r.pageFlags r.pages m)

/-- What `memset` writes. -/
def cleared (g : Ureg) (f : Nat) : Span := ⟨f * 0x1000, g.pages * 0x1000⟩

/-- What `memcpy` writes. -/
def copyOf (g : Ureg) (f : Nat) : Span := ⟨f * 0x1000 + g.off.toNat, g.fileSz.toNat⟩

/-- The address is in the frames of the segment, of which `f` is the first. -/
def InFramesOf (g : Ureg) (f a : Nat) : Prop := f ≤ a / 4096 ∧ a / 4096 < f + g.pages

theorem turns_given (pm : Nat) (img : Nat → BitVec 8) (regs : List Ureg) (m : Vm) :
    (turns pm img regs m).map Prod.fst = given pm img regs m := by
  induction regs generalizing m with
  | nil => rfl
  | cons g regs ih =>
    unfold turns given
    split
    · rfl
    · dsimp only
      split
      · rfl
      · exact congrArg (g :: ·) (ih _)

/-- The loop writes nothing but what its turns clear and copy. -/
theorem loadRegions_bytes (pm : Nat) (img : Nat → BitVec 8) (regs : List Ureg) (code : List Proc.Region) (m : Vm)
    {a : Nat} (h : ∀ p ∈ turns pm img regs m, a ∉ cleared p.1 p.2 ∧ a ∉ copyOf p.1 p.2) :
    (loadRegions pm img regs code m).1.bytes a = m.bytes a := by
  induction regs generalizing code m with
  | nil => rfl
  | cons g regs ih =>
    unfold turns at h
    unfold loadRegions
    split
    · rfl
    · next hbase =>
      rw [if_neg hbase] at h
      cases halloc : pmmAlloc m.pmm .segment g.pages with
      | mk pmm f =>
        rw [halloc] at h
        dsimp only at h ⊢
        split
        · rfl
        · next hf =>
          rw [if_neg hf, List.forall_mem_cons] at h
          obtain ⟨⟨hclear, hcopy⟩, hrest⟩ := h
          refine (ih _ _ hrest).trans ?_
          rw [(mapPages_rest _ _ _ _ _ _).2]
          exact (if_neg hcopy).trans (if_neg hclear)

/-! ## Safety -/

/-- The turns of `proc_create_user_regions`. -/
def turnsTaken (kernel : Nat) (room : Option Nat) (img : Nat → BitVec 8) (regs : List Ureg) (s : Sys) :
    List (Ureg × Nat) :=
  if regs.length = 0 ∨ regs.length > 7 then []
  else match opened kernel room s with
  | none => []
  | some (vm, pm) => turns pm img regs vm

theorem turnsTaken_given (kernel : Nat) (room : Option Nat) (img : Nat → BitVec 8) (regs : List Ureg) (s : Sys) :
    (turnsTaken kernel room img regs s).map Prod.fst = segmentsGiven kernel room img regs s := by
  unfold turnsTaken segmentsGiven
  split
  · rfl
  · cases opened kernel room s with
    | none => rfl
    | some found => exact turns_given ..

/-- What the turn writes is in the frames of the segment. Contents at the null pointer are not copied. -/
structure Confined (start : BitVec 64) (g : Ureg) (f : Nat) : Prop where
  cleared : ∀ a ∈ cleared g f, InFramesOf g f a
  copied : start + g.src ≠ 0 → ∀ a ∈ copyOf g f, InFramesOf g f a

/-- The loader reads bytes of the image, and writes bytes of the frames that it was given for the segment. -/
def LoaderSafe (kernel : Nat) (room : Option Nat) (img : Image) (beyond : Nat → UInt8) (start : BitVec 64) (s : Sys) :
    Prop :=
  ReadsInside kernel room img beyond start s ∧ ∀ entry regs, segments img = .ok (entry, regs) →
    ∀ p ∈ turnsTaken kernel room (memory img beyond) regs s, Confined start p.1 p.2

/-- No sum of the checks wraps, and the contents of no segment that is loaded are longer than its pages. -/
def Measured (kernel : Nat) (room : Option Nat) (img : Image) (beyond : Nat → UInt8) (start : BitVec 64) (s : Sys) :
    Prop :=
  SumsWhole kernel room img beyond start s ∧ ∀ entry regs, segments img = .ok (entry, regs) →
    ∀ r ∈ segmentsGiven kernel room (memory img beyond) regs s, start + r.src ≠ 0 → r.Fits

theorem confined_iff (start : BitVec 64) (g : Ureg) (f : Nat) : Confined start g f ↔ (start + g.src ≠ 0 → g.Fits) := by
  have hoff := g.off_lt
  have hpages := Nat.pos_of_ne_zero g.pages_ne_zero
  unfold Ureg.Fits
  constructor
  · intro h hsrc
    rcases Nat.eq_zero_or_pos g.fileSz.toNat with hzero | hpos
    · omega
    · -- the last byte of the copy
      have hmem : f * 0x1000 + g.off.toNat + (g.fileSz.toNat - 1) ∈ copyOf g f := by
        simp only [copyOf, Span.mem_def]
        omega
      have hlast := h.copied hsrc _ hmem
      unfold InFramesOf at hlast
      omega
  · refine fun h => ⟨fun a ha => ?_, fun hsrc a ha => ?_⟩
    · simp only [Elf.cleared, Span.mem_def] at ha
      unfold InFramesOf
      omega
    · have hfits := h hsrc
      simp only [copyOf, Span.mem_def] at ha
      unfold InFramesOf
      omega

/-- The loader is safe exactly if no sum wraps and the contents of what it loads go into their pages. -/
theorem loader_safe_iff {img : Image} (himg : InMemory img) (kernel : Nat) (room : Option Nat) (beyond : Nat → UInt8)
    (start : BitVec 64) (s : Sys) :
    LoaderSafe kernel room img beyond start s ↔ Measured kernel room img beyond start s := by
  refine and_congr (reads_inside_iff himg kernel room beyond start s) ?_
  refine forall₂_congr fun entry regs => forall_congr' fun _ => ?_
  rw [← turnsTaken_given, List.forall_mem_map]
  exact forall₂_congr fun p _ => confined_iff start p.1 p.2

theorem loader_safe_spin : InMemory spin.link ∧
    ∀ s, LoaderSafe 1 (some 0x200020) spin.link (fun _ => 0) 0x300000 s := by
  refine ⟨spin_linkable.small, fun s => ?_⟩
  refine (loader_safe_iff spin_linkable.small _ _ _ _ _).mpr ⟨⟨fun h hh => ?_, ?_⟩, ?_⟩
  · rw [spin_linkable.checkHeader] at hh
    obtain rfl := Except.ok.inj hh
    decide +kernel
  · rintro entry regs hok r hr -
    rw [segments_link spin_linkable] at hok
    obtain ⟨-, rfl⟩ := Prod.mk.inj (Except.ok.inj hok)
    have hsum : ∀ r ∈ spin.regions, r.src.toNat + r.fileSz.toNat < 2 ^ 64 := by decide +kernel
    exact .inr (hsum r (segmentsGiven_mem hr))
  · rintro entry regs hok r hr -
    rw [segments_link spin_linkable] at hok
    obtain ⟨-, rfl⟩ := Prod.mk.inj (Except.ok.inj hok)
    have hfits : ∀ r ∈ spin.regions, r.Fits := by decide +kernel
    exact hfits r (segmentsGiven_mem hr)

/-- A segment with one byte of memory, the last of a page, and contents of two bytes. -/
def overlong : Program := ⟨0x200000000FFF, [⟨ptLoad, 5, 0x200000000FFF, 1, [0x90, 0x90]⟩]⟩

theorem overlong_linkable : overlong.Linkable := ⟨by decide, by decide +kernel, by decide, by decide⟩

/-- The second byte is written past the frame of the segment. -/
theorem frame_left : InMemory overlong.link ∧
    ¬ LoaderSafe 1 (some 0x200020) overlong.link (fun _ => 0) 0x300000 (identitySys 64) := by
  refine ⟨overlong_linkable.small, fun h => ?_⟩
  have hconfined := h.2 _ _ (segments_link overlong_linkable)
  have hturns : (⟨0x200000000FFF, 120, 2, 1, 5⟩, 4) ∈
      turnsTaken 1 (some 0x200020) (memory overlong.link fun _ => 0) overlong.regions (identitySys 64) := by
    decide +kernel
  have hpast := (hconfined _ hturns).copied (by decide) 0x5000 (by decide)
  revert hpast
  unfold InFramesOf
  decide

end Siathos.Elf
