import Siathos.Elf.Loading
import Siathos.Proc.Isolation

/-!
# Programs that are executed

What of its image the loader reads, and what a program is given when `exec_elf` returns a pid: the bytes of its file,
where its file says.
-/

open Lib (CStr Guarded Run)
open Siathos.Paging Siathos.Proc.Memory

namespace Siathos.Elf

/-! ## The image -/

/-- All that is read is in the image, the contents of the segments that are loaded included. `start` is where
the image lies: the contents at the null pointer are not copied. -/
def ReadsInside (kernel : Nat) (room : Option Nat) (img : Image) (beyond : Nat → UInt8) (start : BitVec 64)
    (s : Sys) : Prop :=
  segments img ≠ .error .outside ∧ ∀ entry regs, segments img = .ok (entry, regs) →
    ∀ r ∈ segmentsGiven kernel room (memory img beyond) regs s, start + r.src ≠ 0 → CopiesInside img r

/-- No sum of the checks wraps, unless it is that of a segment without contents to copy, or of one that is not
loaded. -/
def SumsWhole (kernel : Nat) (room : Option Nat) (img : Image) (beyond : Nat → UInt8) (start : BitVec 64)
    (s : Sys) : Prop :=
  (∀ h, checkHeader img = .ok h → h.Whole) ∧ ∀ entry regs, segments img = .ok (entry, regs) →
    ∀ r ∈ segmentsGiven kernel room (memory img beyond) regs s, start + r.src ≠ 0 →
      r.fileSz.toNat = 0 ∨ r.src.toNat + r.fileSz.toNat < 2 ^ 64

theorem segments_bounded {img : Image} (himg : InMemory img) {entry : BitVec 64} {regs : List Ureg}
    (hok : segments img = .ok (entry, regs)) : ∀ r ∈ regs, Bounded img.length r := by
  rcases checkHeader_cases himg with ⟨h, hheader, -⟩ | ⟨stop, hstop, -⟩
  · by_cases hw : h.Whole
    · rcases segments_cases himg hheader hw with ⟨regs', heq, -, -, hbounded⟩ | ⟨stop, heq, -⟩
      · rw [heq] at hok
        cases hok
        exact hbounded
      · rw [heq] at hok
        cases hok
    · rw [(segments_outside_iff himg).mpr ⟨h, hheader, hw⟩] at hok
      cases hok
  · rw [segments_error hstop] at hok
    cases hok

theorem segmentsGiven_mem {kernel : Nat} {room : Option Nat} {img : Nat → BitVec 8} {regs : List Ureg} {s : Sys}
    {r : Ureg}
    (h : r ∈ segmentsGiven kernel room img regs s) : r ∈ regs :=
  (List.takeWhile_sublist _).subset ((segmentsGiven_loadable img regs).subset h)

/-- In every state of the machine, an image makes the loader leave it exactly if one of the sums wraps. -/
theorem reads_inside_iff {img : Image} (himg : InMemory img) (kernel : Nat) (room : Option Nat) (beyond : Nat → UInt8)
    (start : BitVec 64) (s : Sys) :
    ReadsInside kernel room img beyond start s ↔ SumsWhole kernel room img beyond start s := by
  refine and_congr ?_ (forall₂_congr fun entry regs => forall_congr' fun hok => forall₂_congr fun r hr => ?_)
  · rw [Ne, segments_outside_iff himg]
    push Not
    rfl
  · exact imp_congr_right fun _ => (segments_bounded himg hok r (segmentsGiven_mem hr)).copiesInside_iff himg

theorem execElfCore_beyond {kernel : Nat} {room : Option Nat} {img : Image} {beyond : Nat → UInt8}
    {aVa : Nat → BitVec 64} {argv : List (Option CStr)} {s : Sys}
    (h : ∀ entry regs, segments img = .ok (entry, regs) →
      ∀ r ∈ segmentsGiven kernel room (memory img beyond) regs s, CopiesInside img r) (beyond' : Nat → UInt8) :
    execElfCore kernel room img beyond aVa argv s = execElfCore kernel room img beyond' aVa argv s := by
  unfold execElfCore
  cases hok : segments img with
  | error stop => rfl
  | ok found =>
    obtain ⟨entry, regs⟩ := found
    have hinside := h entry regs hok
    have hread : ∀ g : Ureg, CopiesInside img g → ∀ a < g.fileSz.toNat,
        memory img beyond (g.src.toNat + a) = memory img beyond' (g.src.toNat + a) := by
      intro g hg a ha
      simp only [memory, List.getD_eq_getElem?_getD, List.getElem?_eq_getElem (hg a ha), Option.getD_some]
    have hsame : Proc.Argv.createUserRegions kernel room (memory img beyond) regs aVa argv s =
        Proc.Argv.createUserRegions kernel room (memory img beyond') regs aVa argv s := by
      unfold segmentsGiven opened at hinside
      unfold Proc.Argv.createUserRegions
      split
      · rfl
      · next hlen =>
        rw [if_neg hlen] at hinside
        cases hfree : findFree s with
        | none => rfl
        | some idx =>
          rw [hfree] at hinside
          dsimp only at hinside ⊢
          split
          · rfl
          · next hstack =>
            rw [if_neg hstack] at hinside
            split
            · rfl
            · next hpm =>
              rw [if_neg hpm] at hinside
              rw [loadRegions_congr _ regs [] _ fun g hg => hread g (hinside g hg)]
    simp only [hsame]

/-- A program that loops. -/
def spin : Program := ⟨0x200000000000, [⟨ptLoad, 5, 0x200000000000, 4, [0x90, 0xEB, 0xFE]⟩]⟩

theorem spin_linkable : spin.Linkable := ⟨by decide, by decide +kernel, by decide, by decide⟩

/-! ## The segments of a program -/

section

variable {kernel : Nat} {boot : Nat → Prop} {others : List Nat} {s₀ s t : Sys} {ops : List Op} {room : Option Nat}
  {img : Image} {beyond : Nat → UInt8} {aVa : Nat → BitVec 64} {argv : List (Option CStr)} {e : Int}

theorem execElfCore_ok {entry : BitVec 64} {regs : List Ureg} (hok : segments img = .ok (entry, regs))
    (ht : execElfCore kernel room img beyond aVa argv s = (t, .ok e)) :
    ∃ zone, createUserRegions kernel room (memory img beyond) regs zone s = (t, e) := by
  unfold execElfCore at ht
  rw [hok] at ht
  obtain ⟨zone, hzone⟩ := Proc.Argv.createUserRegions_zone kernel room (memory img beyond) regs aVa argv s
  refine ⟨zone, ?_⟩
  rw [← hzone]
  dsimp only at ht
  obtain ⟨rfl, he⟩ := Prod.mk.inj ht
  exact Prod.ext rfl (Except.ok.inj he)

/-- Ring 3 has the segment in the address space, as the linker was given it. -/
def Segment.In (sg : Segment) (m : Vm) (pml4 : Nat) : Prop :=
  ∀ d < sg.memSz.toNat, ∃ x, Boot.translate m.tables pml4 (sg.vaddr + BitVec.ofNat 64 d) = some x ∧
    m.bytes x.phys = (sg.contents.getD d 0).toBitVec ∧ x.user = (sg.flags.getLsbD 0 || sg.flags.getLsbD 1) ∧
    x.writable = (!sg.flags.getLsbD 0 && sg.flags.getLsbD 1) ∧
    Boot.executes m.tables pml4 (sg.vaddr + BitVec.ofNat 64 d) = sg.flags.getLsbD 0

theorem Represents.byte {sg : Segment} {r : Ureg} (h : Represents img sg r) {d : Nat} (hd : d < r.fileSz.toNat) :
    memory img beyond (r.src.toNat + d) = (sg.contents.getD d 0).toBitVec := by
  obtain ⟨rest, hrest⟩ := h.contents
  have hin := h.inside
  have hlen : d < sg.contents.length := h.fileSz ▸ hd
  have hget : img[r.src.toNat + d]? = sg.contents[d]? := by
    rw [← List.getElem?_drop, ← hrest, List.getElem?_append_left hlen]
  rw [memory, List.getD_eq_getElem?_getD, hget, List.getD_eq_getElem?_getD, List.getElem?_eq_getElem hlen]
  rfl

theorem Represents.content {sg : Segment} {r : Ureg} (h : Represents img sg r) (d : Nat) :
    content (memory img beyond) r (r.off.toNat + d) = (sg.contents.getD d 0).toBitVec := by
  rw [Elf.content, Nat.add_sub_cancel_left]
  split
  · next hin => exact h.byte (by omega)
  · next hout =>
    have hlen : sg.contents.length ≤ d := by
      rw [← h.fileSz]
      omega
    rw [List.getD_eq_getElem?_getD, List.getElem?_eq_none hlen]
    rfl

/-- The contents of the segment are in its pages, and so is all of its memory. -/
structure Regular (g : Ureg) : Prop where
  file : g.Fits
  memory : g.off.toNat + g.memSz.toNat ≤ g.pages * 0x1000

instance (g : Ureg) : Decidable (Regular g) :=
  decidable_of_iff (g.Fits ∧ g.off.toNat + g.memSz.toNat ≤ g.pages * 0x1000) ⟨fun h => ⟨h.1, h.2⟩, fun h => ⟨h.1, h.2⟩⟩

theorem Regular.offset {g : Ureg} (h : Regular g) (hpages : g.pages ≤ 2 ^ 36) {d : Nat} (hd : d < g.memSz.toNat) :
    offsetIn g (g.vaddr + BitVec.ofNat 64 d) = g.off.toNat + d := by
  have hmem := h.memory
  have hbase := (aligned_iff g.base).mp g.base_aligned
  have hoff : g.off.toNat < 4096 := g.off_lt
  have hvaddr : g.vaddr = g.base + g.off := by rw [Ureg.off, BitVec.add_comm, BitVec.sub_add_cancel]
  rw [offsetIn, vpn, vpn, hvaddr, BitVec.toNat_add, BitVec.toNat_add, BitVec.toNat_ofNat]
  omega

theorem Made.in {slots : Nat → Bool} {regs : List Ureg} {idx : Nat} (h : Made slots (memory img beyond) regs e t idx)
    (hdisjoint : Disjoint (regionsUmap regs)) {g : Ureg} (hg : g ∈ regs) (hreg : Regular g) {sg : Segment}
    (hrep : Represents img sg g) (hlow : sg.vaddr.toNat + sg.memSz.toNat ≤ 2 ^ 47) :
    sg.In t.vm (t.procs idx).cr3 := by
  intro d hd
  have hpages := h.pages g hg
  have hmem := hreg.memory
  have hoffset := hreg.offset hpages (d := d) (hrep.memSz ▸ hd)
  obtain ⟨earlier, later, rfl⟩ := List.append_of_mem hg
  have hu : Has g.region (g.vaddr + BitVec.ofNat 64 d) := by
    rw [has_iff hpages, hoffset]
    rw [← hrep.memSz] at hd
    omega
  rw [regionsUmap, disjoint_append, List.map_append, List.map_cons] at hdisjoint
  obtain ⟨hcode, -, hstack⟩ := hdisjoint
  have hlater : ¬ Covers (later.map Ureg.region) (g.vaddr + BitVec.ofNat 64 d) := by
    have hapart := (List.pairwise_cons.mp (List.pairwise_append.mp hcode).2.1).1
    rintro ⟨g', hg', hu'⟩
    exact hapart g' hg' _ hu hu'
  have hno : ¬ Has (userStack ((earlier ++ g :: later).map Ureg.region)) (g.vaddr + BitVec.ofNat 64 d) := by
    rw [List.map_append, List.map_cons]
    exact fun hhas => hstack _ ⟨g.region, by simp, hu⟩ (covers_single.mpr hhas)
  have hcanonical : Boot.canonical (g.vaddr + BitVec.ofNat 64 d) = true := by
    refine Boot.canonical_low ?_
    rw [hrep.vaddr, BitVec.toNat_add, BitVec.toNat_ofNat]
    omega
  obtain ⟨x, hx⟩ := h.found earlier g later rfl _ hu hlater hno hcanonical
  have hwalk := hx.walk
  have hexec := hx.executes
  rw [hrep.vaddr] at hwalk hexec
  refine ⟨x, hwalk, ?_, ?_, ?_, ?_⟩
  · rw [hx.byte, hoffset, hrep.content]
  · rw [hx.user, pfX, pfW, hrep.flags]
  · rw [hx.writable, pfX, pfW, hrep.flags]
  · rw [hexec, pfX, hrep.flags]

theorem forall₂_left {α β : Type*} {R : α → β → Prop} {l : List α} {l' : List β} (h : List.Forall₂ R l l') :
    ∀ a ∈ l, ∃ b ∈ l', R a b := by
  induction h with
  | nil => simp
  | cons hab _ ih =>
    refine List.forall_mem_cons.mpr ⟨⟨_, List.mem_cons_self, hab⟩, fun a ha => ?_⟩
    obtain ⟨b, hb, hr⟩ := ih a ha
    exact ⟨b, List.mem_cons_of_mem _ hb, hr⟩

theorem apart_of_le {g g' : Proc.Region} (hg : g.base &&& 0xFFF = 0) (hg' : g'.base &&& 0xFFF = 0)
    (h : vpn g.base + pagesOf g ≤ vpn g'.base) (h' : vpn g'.base + pagesOf g' ≤ 2 ^ 36) : ∀ u, Has g u →
    ¬ Has g' u := by
  rintro u ⟨i, hi, hu⟩ ⟨i', hi', hu'⟩
  rw [hu', vpn_page hg', vpn_page hg] at hu
  omega

/-! ## A machine of 64 pages -/

/-- What the machine makes of the program that loops. -/
def spinSys : Sys × Int :=
  Proc.Argv.createUserRegions 1 (some 0x200020) (memory spin.link fun _ => 0) spin.regions (fun _ => 0) []
    (identitySys 64)

theorem exec_spin : execElfCore 1 (some 0x200020) spin.link (fun _ => 0) (fun _ => 0) [] (identitySys 64) =
    (spinSys.1, .ok 1) := by
  have hpid : spinSys.2 = 1 := by decide +kernel
  rw [execElfCore, segments_link spin_linkable, ← hpid]
  rfl

theorem spin_own : Own (kernelSlots 1 (identitySys 64).vm) (regionsUmap spin.regions) := by
  unfold Own
  decide +kernel

theorem spin_disjoint : Disjoint (regionsUmap spin.regions) := by
  have humap : regionsUmap spin.regions = [⟨0x200000000000, 0x1000⟩, ⟨0x200000011000, 0x10000⟩] := by decide +kernel
  rw [humap, Proc.Memory.Disjoint, List.pairwise_pair]
  exact apart_of_le (by decide) (by decide) (by decide +kernel) (by decide +kernel)

/-! ## Executions -/

/-- The file of a program is executed: its process has the first seven of the segments that the linker was given. -/
theorem exec_link_made {p : Program} (hboot : Booted kernel boot others s₀) (hreserved : Reserved kernel s₀.vm)
    (hrun : Run (Guarded (Contained (kernelSlots kernel s₀.vm) kernel) (Step kernel)) s₀ ops s)
    (hlink : p.Linkable) (hroom : ∀ b ∈ room, b ≠ 0) (hown : Own (kernelSlots kernel s₀.vm) (regionsUmap p.regions))
    (hdisjoint : Disjoint (regionsUmap p.regions)) (hregs : ∀ g ∈ p.regions, Regular g)
    (hlow : ∀ sg ∈ p.loads, sg.vaddr.toNat + sg.memSz.toNat ≤ 2 ^ 47)
    (ht : execElfCore kernel room p.link beyond aVa argv s = (t, .ok e)) (he : 0 < e) :
    ∃ idx, Ready t idx ∧ ((t.procs idx).pid : Int) = e ∧ (t.procs idx).isUser = true ∧
      ∀ sg ∈ p.loads.take 7, sg.In t.vm (t.procs idx).cr3 := by
  obtain ⟨base, hrooted, hbase⟩ := (spaces_run hboot hreserved hrun).rooted
  obtain ⟨zone, hcreate⟩ := execElfCore_ok (segments_link hlink) ht
  obtain ⟨idx, hmade⟩ :=
    createUserRegions_made hrooted (fun f hf => hbase f (.inr hf)) hroom hown (fun g hg => (hregs g hg).file) hcreate he
  refine ⟨idx, hmade.ready, hmade.pid, hmade.user, fun sg hsg => ?_⟩
  obtain ⟨r, hr, hrep⟩ := forall₂_left hlink.represents sg hsg
  exact hmade.in hdisjoint hr (hregs r hr) hrep (hlow sg (List.mem_of_mem_take hsg))

theorem exec_link_spin : ∃ idx, Ready spinSys.1 idx ∧ ((spinSys.1.procs idx).pid : Int) = 1 ∧
    (spinSys.1.procs idx).isUser = true ∧ ∀ sg ∈ spin.loads.take 7, sg.In spinSys.1.vm (spinSys.1.procs idx).cr3 := by
  have hroom : ∀ b ∈ some 0x200020, b ≠ 0 := by simp
  exact exec_link_made (identitySys_booted (by decide)) (identitySys_reserved 64) (.nil _) spin_linkable hroom spin_own
    spin_disjoint (by decide +kernel) (by decide) exec_spin (by decide)

end

end Siathos.Elf
