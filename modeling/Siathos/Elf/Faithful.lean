import Siathos.Elf.Exec

/-!
# Images that are loaded as they say

A page has what the last of the loaded segments with this page has there, unless it is one of the stack. So the process
has what the image says of a byte exactly if that segment says the same of it.
-/

open Lib (CStr Guarded Run)
open Siathos.Paging Siathos.Proc.Memory

namespace Siathos.Elf

/-! ## What an image says -/

/-- A program header of the image, of a segment that is to be loaded. -/
def LoadHeader (img : Image) (d : Phdr) : Prop :=
  d.kind = ptLoad ∧ ∃ h, checkHeader img = .ok h ∧ ∃ ph ∈ h.table, d.At img ph

def Phdr.executable (d : Phdr) : Bool := d.flags.getLsbD 0

/-- `PF_W` without `PF_X`. -/
def Phdr.writable (d : Phdr) : Bool := !d.flags.getLsbD 0 && d.flags.getLsbD 1

/-- The address of the byte `a` of the segment. -/
def Phdr.addr (d : Phdr) (a : Nat) : BitVec 64 := d.pvaddr + BitVec.ofNat 64 a

/-- The byte `a` of the segment is to be `b`: that of the file, and 0 behind the contents. -/
def Phdr.Says (d : Phdr) (img : Image) (a : Nat) (b : BitVec 8) : Prop :=
  if a < d.pfilesz.toNat then (img[d.poff.toNat + a]?).map UInt8.toBitVec = some b else b = 0

instance (d : Phdr) (img : Image) (a : Nat) (b : BitVec 8) : Decidable (d.Says img a b) := by
  unfold Phdr.Says
  infer_instance

/-- Ring 3 has the byte `a` of the segment where the header says, in no page of the stack. -/
structure Represented (img : Image) (d : Phdr) (t : Sys) (idx a : Nat) : Prop where
  whole : d.pvaddr.toNat + a < 2 ^ 64
  apart : ∀ stack ∈ (t.procs idx).umap.getLast?, ¬ Has stack (d.addr a)
  found : ∃ x, Boot.translate t.vm.tables (t.procs idx).cr3 (d.addr a) = some x ∧ x.user = true ∧
    x.writable = d.writable ∧ d.Says img a (t.vm.bytes x.phys)
  executable : Boot.executes t.vm.tables (t.procs idx).cr3 (d.addr a) = d.executable

/-- Every segment of the image is in the address space of the process. -/
def Faithful (img : Image) (t : Sys) (idx : Nat) : Prop :=
  ∀ d, LoadHeader img d → ∀ a < d.pmemsz.toNat, Represented img d t idx a

/-! ## The holder of a page -/

/-- The last of the loaded segments that has the page of the address. -/
def holder (regs : List Ureg) (u : BitVec 64) : Option Ureg :=
  regs.reverse.find? fun g => decide (offsetIn g u < g.pages * 4096)

/-- The byte `a` of the segment has an address, the stack does not have its page, and the holder of the page has PF_X or
PF_W and says the same of the byte. -/
structure Upheld (img : Image) (mem : Nat → BitVec 8) (regs : List Ureg) (d : Phdr) (a : Nat) : Prop where
  whole : d.pvaddr.toNat + a < 2 ^ 64
  canonical : Boot.canonical (d.addr a) = true
  apart : ¬ Has (userStack (regs.map Ureg.region)) (d.addr a)
  held : ∃ g ∈ holder regs (d.addr a), (pfX g || pfW g) = true ∧ (!pfX g && pfW g) = d.writable ∧
    pfX g = d.executable ∧ d.Says img a (content mem g (offsetIn g (d.addr a)))

instance (img : Image) (mem : Nat → BitVec 8) (regs : List Ureg) (d : Phdr) (a : Nat) :
    Decidable (Upheld img mem regs d a) := by
  refine @decidable_of_iff _ (d.pvaddr.toNat + a < 2 ^ 64 ∧ Boot.canonical (d.addr a) = true ∧
    ¬ Has (userStack (regs.map Ureg.region)) (d.addr a) ∧ ∃ g ∈ holder regs (d.addr a), (pfX g || pfW g) = true ∧
    (!pfX g && pfW g) = d.writable ∧ pfX g = d.executable ∧ d.Says img a (content mem g (offsetIn g (d.addr a))))
    ⟨fun ⟨hwhole, hcanonical, hapart, hheld⟩ => ⟨hwhole, hcanonical, hapart, hheld⟩,
      fun ⟨hwhole, hcanonical, hapart, hheld⟩ => ⟨hwhole, hcanonical, hapart, hheld⟩⟩ ?_
  unfold Has
  infer_instance

theorem holder_some {regs : List Ureg} (hpages : ∀ g ∈ regs, g.pages ≤ 2 ^ 36) {u : BitVec 64} {g : Ureg}
    (h : holder regs u = some g) :
    ∃ earlier later, regs = earlier ++ g :: later ∧ Has g.region u ∧ ¬ Covers (later.map Ureg.region) u := by
  obtain ⟨hg, before, after, heq, hbefore⟩ := List.find?_eq_some_iff_append.mp h
  have hregs : regs = after.reverse ++ g :: before.reverse := by
    rw [← List.reverse_reverse regs, heq]
    simp
  refine ⟨after.reverse, before.reverse, hregs, (has_iff (hpages g ?_) u).mpr (of_decide_eq_true hg), ?_⟩
  · rw [hregs]
    simp
  · rintro ⟨region, hregion, hu⟩
    obtain ⟨g', hg', rfl⟩ := List.mem_map.mp hregion
    have hin := (has_iff (hpages g' (by rw [hregs]; simp [List.mem_reverse.mp hg'])) u).mp hu
    have hno := hbefore g' (List.mem_reverse.mp hg')
    simp [hin] at hno

theorem holder_none {regs : List Ureg} (hpages : ∀ g ∈ regs, g.pages ≤ 2 ^ 36) {u : BitVec 64}
    (h : holder regs u = none) : ¬ Covers (regs.map Ureg.region) u := by
  rintro ⟨region, hregion, hu⟩
  obtain ⟨g, hg, rfl⟩ := List.mem_map.mp hregion
  have hno := List.find?_eq_none.mp h g (List.mem_reverse.mpr hg)
  exact hno (decide_eq_true ((has_iff (hpages g hg) u).mp hu))

theorem translate_canonical {tables : Nat → Nat → BitVec 64} {pml4 : Nat} {v : BitVec 64} {x : Boot.Reach}
    (h : Boot.translate tables pml4 v = some x) : Boot.canonical v = true := by
  by_contra hno
  rw [Bool.not_eq_true] at hno
  simp [Boot.translate, hno] at h

section

variable {slots : Nat → Bool} {mem : Nat → BitVec 8} {regs : List Ureg} {e : Int} {t : Sys} {idx : Nat} {img : Image}

/-- What the process has at an address is what the holder of the page says. -/
theorem Made.represented_iff (h : Made slots mem regs e t idx)
    (hkernel : ∀ u x, slots (idxL4 u) = true → Boot.translate t.vm.tables (t.procs idx).cr3 u = some x → x.user = false)
    (d : Phdr) (a : Nat) : Represented img d t idx a ↔ Upheld img mem regs d a := by
  have hlast : (t.procs idx).umap.getLast? = some (userStack (regs.map Ureg.region)) := by
    rw [h.umap, regionsUmap, List.getLast?_concat]
  constructor
  · rintro ⟨hwhole, hapart, ⟨x, hwalk, huser, hwritable, hsays⟩, hexec⟩
    have hcanonical := translate_canonical hwalk
    have hno := hapart _ hlast
    refine ⟨hwhole, hcanonical, hno, ?_⟩
    cases hheld : holder regs (d.addr a) with
    | none =>
      -- neither a segment nor the stack has the page
      exfalso
      cases hslot : slots (idxL4 (d.addr a)) with
      | false =>
        have hrest := h.rest _ hslot (by
          rw [regionsUmap, covers_append, not_or, covers_single]
          exact ⟨holder_none h.pages hheld, hno⟩)
        rw [hwalk] at hrest
        cases hrest
      | true =>
        rw [hkernel _ x hslot hwalk] at huser
        cases huser
    | some g =>
      obtain ⟨earlier, later, hregs, hu, hlater⟩ := holder_some h.pages hheld
      obtain ⟨x', hx⟩ := h.found earlier g later hregs _ hu hlater hno hcanonical
      obtain rfl := Option.some.inj (hwalk.symm.trans hx.walk)
      exact ⟨g, rfl, hx.user.symm.trans huser, hx.writable.symm.trans hwritable, hx.executes.symm.trans hexec,
        hx.byte ▸ hsays⟩
  · rintro ⟨hwhole, hcanonical, hno, g, hheld, huser, hwritable, hexec, hsays⟩
    obtain ⟨earlier, later, hregs, hu, hlater⟩ := holder_some h.pages hheld
    obtain ⟨x, hx⟩ := h.found earlier g later hregs _ hu hlater hno hcanonical
    refine ⟨hwhole, fun stack hstack => ?_, ⟨x, hx.walk, hx.user.trans huser, hx.writable.trans hwritable, ?_⟩,
      hx.executes.trans hexec⟩
    · rw [hlast] at hstack
      exact Option.some.inj hstack ▸ hno
    · rw [hx.byte]
      exact hsays

end

/-! ## Executions -/

section

variable {kernel : Nat} {boot : Nat → Prop} {others : List Nat} {s₀ s t : Sys} {ops : List Op} {room : Option Nat}
  {img : Image} {beyond : Nat → UInt8} {aVa : Nat → BitVec 64} {argv : List (Option CStr)} {e : Int}

/-- The process has every segment as the image says, exactly if the holders of the pages uphold it. -/
theorem exec_faithful_iff (hboot : Booted kernel boot others s₀) (hreserved : Reserved kernel s₀.vm)
    (hkernel : ∀ i, user (s₀.vm.tables kernel i) = false)
    (hrun : Run (Guarded (Contained (kernelSlots kernel s₀.vm) kernel) (Step kernel)) s₀ ops s) (hroom : Found s room)
    {entry : BitVec 64} {regs : List Ureg} (hok : segments img = .ok (entry, regs))
    (hown : Own (kernelSlots kernel s₀.vm) (regionsUmap regs)) (hfits : ∀ g ∈ regs, g.Fits)
    (ht : execElfCore kernel room img beyond aVa argv s = (t, .ok e)) (he : 0 < e) :
    ∃ idx, Ready t idx ∧ ((t.procs idx).pid : Int) = e ∧
      (Faithful img t idx ↔ ∀ d, LoadHeader img d → ∀ a < d.pmemsz.toNat, Upheld img (memory img beyond) regs d a) := by
  obtain ⟨base, hrooted, hbase⟩ := (spaces_run hboot hreserved hrun).rooted
  obtain ⟨zone, hcreate⟩ := execElfCore_ok hok ht
  obtain ⟨idx, hmade⟩ := createUserRegions_made hrooted (fun f hf => hbase f (.inr hf)) (fun p hp => (hroom p hp).1)
    hown hfits hcreate he
  refine ⟨idx, hmade.ready, hmade.pid, forall₂_congr fun d _ => forall₂_congr fun a _ => ?_⟩
  refine hmade.represented_iff (fun u x hslot hwalk => ?_) d a
  have hcontained : Contained (kernelSlots kernel s₀.vm) kernel s
      (.createUserRegions room (memory img beyond) regs zone) :=
    fun _ => ⟨hown.reached _, fun g hg => hfits g ((List.takeWhile_sublist _).subset hg)⟩
  have hnext := hrun.append (.single ⟨hcontained, hroom, congrArg Prod.fst hcreate⟩)
  rw [Boot.process_translates hboot hreserved hnext hmade.ready.2.1 hslot] at hwalk
  exact Boot.translate_kernel hwalk (hkernel _)

end

/-! ## Linked programs -/

theorem Phdr.At.unique {img : Image} {ph : BitVec 64} {d d' : Phdr} (h : d.At img ph) (h' : d'.At img ph) : d = d' := by
  obtain ⟨kind, flags, poff, pvaddr, pfilesz, pmemsz⟩ := d
  obtain ⟨kind', flags', poff', pvaddr', pfilesz', pmemsz'⟩ := d'
  have hkind := Except.ok.inj (h.kind.symm.trans h'.kind)
  have hflags := Except.ok.inj (h.flags.symm.trans h'.flags)
  have hpoff := Except.ok.inj (h.poff.symm.trans h'.poff)
  have hpvaddr := Except.ok.inj (h.pvaddr.symm.trans h'.pvaddr)
  have hpfilesz := Except.ok.inj (h.pfilesz.symm.trans h'.pfilesz)
  have hpmemsz := Except.ok.inj (h.pmemsz.symm.trans h'.pmemsz)
  dsimp only at hkind hflags hpoff hpvaddr hpfilesz hpmemsz
  subst hkind hflags hpoff hpvaddr hpfilesz hpmemsz
  rfl

/-- The program headers in the file of a program are those that the linker wrote. -/
theorem loadHeader_link {p : Program} (h : p.Linkable) (d : Phdr) :
    LoadHeader p.link d ↔ d.kind = ptLoad ∧ d ∈ p.phdrs := by
  have heq : p.header.table = (List.range' 64 p.header.phnum.toNat 56).map (BitVec.ofNat 64) :=
    p.header.table_eq rfl rfl
  have hat := table_at h.small p.link_holds.2.1
  rw [show p.phdrs.length = p.header.phnum.toNat from (length_layout _ _).trans h.phnum.symm, ← heq] at hat
  refine and_congr_right fun _ => ⟨?_, fun hd => ?_⟩
  · rintro ⟨hd, hheader, ph, hph, hdat⟩
    obtain rfl := Except.ok.inj (h.checkHeader.symm.trans hheader)
    obtain ⟨d', hd', hdat'⟩ := forall₂_left hat ph hph
    exact hdat.unique hdat' ▸ hd'
  · obtain ⟨ph, hph, hdat⟩ := forall₂_left hat.flip d hd
    exact ⟨p.header, h.checkHeader, ph, hph, hdat⟩

theorem identitySys_hidden (total : Nat) (i : Nat) : user ((identitySys total).vm.tables 1 i) = false := by
  by_cases hi : i = 0
  · rw [show (identitySys total).vm.tables 1 i = entry (pageAddr 2) 0x3 from if_pos ⟨rfl, hi⟩]
    decide
  · rw [show (identitySys total).vm.tables 1 i = 0 by simp [identitySys, hi]]
    decide

/-- A program that loops, with six bytes of data of these flags. -/
def withData (flags : BitVec 32) : Program :=
  ⟨0x200000000000, [⟨ptLoad, 5, 0x200000000000, 2, [0xEB, 0xFE]⟩, ⟨ptLoad, flags, 0x200000001800, 6, [1, 2, 3, 4]⟩]⟩

/-- What the machine of 64 pages makes of it. -/
def dataSys (flags : BitVec 32) : Sys × Int :=
  Proc.Argv.createUserRegions 1 (some 0x200020) (memory (withData flags).link fun _ => 0) (withData flags).regions
    (fun _ => 0) [] (identitySys 64)

theorem exec_data {flags : BitVec 32} (hlink : (withData flags).Linkable) (hpid : (dataSys flags).2 = 1) :
    execElfCore 1 (some 0x200020) (withData flags).link (fun _ => 0) (fun _ => 0) [] (identitySys 64) =
      ((dataSys flags).1, .ok 1) := by
  rw [execElfCore, segments_link hlink, ← hpid]
  rfl

theorem writable_linkable : (withData 6).Linkable := ⟨by decide, by decide +kernel, by decide, by decide⟩

theorem constant_linkable : (withData 4).Linkable := ⟨by decide, by decide +kernel, by decide, by decide⟩

theorem writable_own : Own (kernelSlots 1 (identitySys 64).vm) (regionsUmap (withData 6).regions) := by
  unfold Own
  decide +kernel

theorem exec_faithful_writable : ∃ idx, Ready (dataSys 6).1 idx ∧ (((dataSys 6).1.procs idx).pid : Int) = 1 ∧
    Faithful (withData 6).link (dataSys 6).1 idx := by
  have hroom : Found (identitySys 64) (some 0x200020) := by simp [Found, identitySys, freshSys]
  obtain ⟨idx, hready, hpid, hfaithful⟩ := exec_faithful_iff (identitySys_booted (by decide))
    (identitySys_reserved 64) (identitySys_hidden 64) (.nil _) hroom (segments_link writable_linkable) writable_own
    (by decide +kernel) (exec_data writable_linkable (by decide +kernel)) (by decide)
  refine ⟨idx, hready, hpid, hfaithful.mpr fun d hd a ha => ?_⟩
  obtain ⟨-, hd⟩ := (loadHeader_link writable_linkable d).mp hd
  have hall : ∀ d ∈ (withData 6).phdrs, ∀ a < d.pmemsz.toNat,
      Upheld (withData 6).link (memory (withData 6).link fun _ => 0) (withData 6).regions d a := by
    decide +kernel
  exact hall d hd a ha

/-- Data that is neither written nor executed is mapped without the user bit. -/
theorem constant_hidden : Booted 1 (fun f => f < 3) [] (identitySys 64) ∧ Reserved 1 (identitySys 64).vm ∧
    ∃ t idx, execElfCore 1 (some 0x200020) (withData 4).link (fun _ => 0) (fun _ => 0) [] (identitySys 64) =
        (t, .ok 1) ∧ Ready t idx ∧ ((t.procs idx).pid : Int) = 1 ∧ ¬ Faithful (withData 4).link t idx := by
  refine ⟨identitySys_booted (by decide), identitySys_reserved 64, (dataSys 4).1, 0,
    exec_data constant_linkable (by decide +kernel), by decide +kernel, by decide +kernel, fun h => ?_⟩
  have hload : LoadHeader (withData 4).link ⟨1, 4, 178, 0x200000001800, 4, 6⟩ :=
    (loadHeader_link constant_linkable _).mpr ⟨rfl, List.mem_cons_of_mem _ List.mem_cons_self⟩
  obtain ⟨x, hwalk, huser, -⟩ := (h _ hload 0 (by decide)).found
  have hhidden : (Boot.translate (dataSys 4).1.vm.tables ((dataSys 4).1.procs 0).cr3 0x200000001800).map
      Boot.Reach.user = some false := by
    decide +kernel
  rw [show Phdr.addr ⟨1, 4, 178, 0x200000001800, 4, 6⟩ 0 = 0x200000001800 from rfl] at hwalk
  rw [hwalk, Option.map_some, huser] at hhidden
  cases hhidden

end Siathos.Elf
