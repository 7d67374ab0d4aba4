import Siathos.Boot.Reach
import Siathos.Elf.Link
import Siathos.Proc.Passing

/-!
# Segments in memory

The frames of a segment hold its contents and zeros, and its pages are mapped to them. What is loaded later does not
write these frames, and maps those of the pages anew that it has in common with the segment.
-/

open Siathos.Paging Siathos.Proc.Memory

namespace Siathos.Elf

/-! ## The frames of a segment -/

/-- What the byte at the offset from the first page of the segment is to be. -/
def content (img : Nat → BitVec 8) (g : Ureg) (o : Nat) : BitVec 8 :=
  if g.off.toNat ≤ o ∧ o < g.off.toNat + g.fileSz.toNat then img (g.src.toNat + (o - g.off.toNat)) else 0

section

variable {slots : Nat → Bool} {kernel : Nat} {roots : Nat → Option Nat} {base : Nat → Prop} {m m' : Vm} {k r : Nat}
  {img : Nat → BitVec 8} {g : Ureg} {f : Nat}

/-- The segment is in the frames from `f` on, to which those of its pages are mapped that are kept. -/
structure Placed (roots : Nat → Option Nat) (k : Nat) (img : Nat → BitVec 8) (Kept : BitVec 64 → Prop) (g : Ureg)
    (f : Nat) (m : Vm) : Prop where
  used : ∀ i < g.pages, m.pmm.used (f + i) = true
  lt : f + g.pages ≤ m.pmm.total
  mapped : ∀ i < g.pages, Kept (page g.base i) → pte roots m k (page g.base i) = entry (pageAddr (f + i)) g.pageFlags
  bytes : ∀ o < g.pages * 0x1000, m.bytes (f * 0x1000 + o) = content img g o

theorem Placed.mono {Kept Kept' : BitVec 64 → Prop} (h : Placed roots k img Kept g f m) (hsub : ∀ u, Kept' u → Kept u) :
    Placed roots k img Kept' g f m :=
  ⟨h.used, h.lt, fun i hi hkept => h.mapped i hi (hsub _ hkept), h.bytes⟩

/-- The `memset` and the `memcpy` of the loop over the regions. -/
def copied (img : Nat → BitVec 8) (g : Ureg) (f : Nat) (m : Vm) : Vm :=
  fill (fill m (f * 0x1000) (g.pages * 0x1000) fun _ => 0) (f * 0x1000 + g.off.toNat) g.fileSz.toNat
    fun a => img (g.src.toNat + a)

theorem copied_bytes {o : Nat} (ho : o < g.pages * 0x1000) (b : Vm) :
    (copied img g f b).bytes (f * 0x1000 + o) = content img g o := by
  simp only [copied, fill, content]
  by_cases hin : g.off.toNat ≤ o ∧ o < g.off.toNat + g.fileSz.toNat
  · rw [if_pos (by omega), if_pos hin]
    congr 2
    omega
  · rw [if_neg (by omega), if_neg hin, if_pos (by omega)]

theorem region_slot (hown : Own slots [g.region]) (hn : g.pages < 2 ^ 52) :
    ∀ i < g.pages, slots (idxL4 (page g.base i)) = false := by
  intro i hi
  refine hown g.region List.mem_cons_self i ?_
  rwa [Ureg.region, pagesOf_region hn]

theorem segment_placed (h : Space slots kernel roots base m) (hr : roots k = some r) (hown : Own slots [g.region])
    {pmm : Pmm} (ht : Takes m.pmm pmm f g.pages) {l : List Purpose}
    (href : (mapPages r g.base f g.pageFlags g.pages (copied img g f { m with pmm })).pmm.refused = l ++ m.pmm.refused)
    (hall : .table ∉ l) :
    Placed roots k img (fun _ => True) g f
      (mapPages r g.base f g.pageFlags g.pages (copied img g f { m with pmm })) := by
  have htotal := h.total
  have hpos := g.pages_ne_zero
  have hlast := (ht.free (f + (g.pages - 1)) (by omega) (by omega)).2
  have hspace : Space slots kernel roots (fun j => base j ∨ (f ≤ j ∧ j < f + g.pages))
    (copied img g f { m with pmm }) :=
    Space.bytes (h.alloc ht) rfl rfl
  have hgranted : Granted kernel (fun j => base j ∨ (f ≤ j ∧ j < f + g.pages))
    (copied img g f { m with pmm }) f g.pages := by
    obtain ⟨hb, ho, hlt⟩ := granted_of_takes h ht
    exact ⟨hb, ho, hlt⟩
  obtain ⟨got, hmaps⟩ := mapPages_spec hspace hr g.base_aligned g.plain (region_slot hown (by omega)) hgranted
  have hfills := mapPages_fills r g.base f g.pageFlags g.pages (copied img g f { m with pmm })
  obtain ⟨l', hl', htable, hgot⟩ := hmaps.refused
  have hused : ∀ i < g.pages, pmm.used (f + i) = true := fun i hi => (ht.used _).mpr (.inr (by omega))
  have hnone : l' = [] := by
    refine List.eq_nil_iff_forall_not_mem.mpr fun x hx => ?_
    obtain rfl := htable x hx
    rw [hl'] at href
    have hsame : l' = l := List.append_cancel_right (href.trans (congrArg (l ++ ·) ht.refused.symm))
    exact hall (hsame ▸ hx)
  refine ⟨fun i hi => hfills.mono _ (hused i hi), ?_, fun i hi _ => hmaps.mapped i (hgot.mp hnone i hi),
    fun o ho => ?_⟩
  · rw [hfills.total]
    change f + g.pages ≤ pmm.total
    rw [ht.total]
    omega
  · have hframe : (f * 0x1000 + o) / 4096 = f + o / 4096 := by omega
    rw [hfills.bytes _ (by rw [hframe]; exact hused _ (by omega)), copied_bytes ho]

/-- Mapping other regions keeps the pages that these do not have. -/
theorem Placed.loads {Kept : BitVec 64 → Prop} (h : Placed roots k img Kept g f m) (hown : Own slots [g.region])
    (hfills : Fills m m') {base' : Nat → Prop} {l : List Purpose} {umap : List Proc.Region}
    {Flags : BitVec 64 → Prop} (hloads : Loads slots kernel roots k base base' l umap Flags m m')
    (htotal : m.pmm.total ≤ 2 ^ 36) : Placed roots k img (fun u => Kept u ∧ ¬ Covers umap u) g f m' where
  used i hi := hfills.mono _ (h.used i hi)
  lt := hfills.total.symm ▸ h.lt
  mapped i hi hkept := by
    have hlt := h.lt
    rw [hloads.rest k _ (region_slot hown (by omega) i hi) fun _ => hkept.2, h.mapped i hi hkept.1]
  bytes o ho := by
    have hframe : (f * 0x1000 + o) / 4096 = f + o / 4096 := by omega
    have hused := h.used (o / 4096) (by omega)
    rw [hfills.bytes _ (by rw [hframe]; exact hused), h.bytes o ho]

/-! ## The loop over the segments -/

/-- Each segment keeps the pages that no later one has. -/
theorem loadRegions_placed (h : Space slots kernel roots base m) (hr : roots k = some r) {regs : List Ureg}
    (hown : Own slots (regs.map Ureg.region)) (hfits : ∀ g ∈ regs, g.Fits) {code code' : List Proc.Region}
    (heq : loadRegions r img regs code m = (m', .ok code')) {l : List Purpose}
    (href : m'.pmm.refused = l ++ m.pmm.refused) (hall : .table ∉ l) {earlier later : List Ureg}
    (hregs : regs = earlier ++ g :: later) :
    ∃ f, Placed roots k img (fun u => ¬ Covers (later.map Ureg.region) u) g f m' := by
  induction regs generalizing m base code l earlier with
  | nil => simp at hregs
  | cons g' regs ih =>
    rw [List.forall_mem_cons] at hfits
    rw [List.map_cons, ← List.singleton_append, own_append] at hown
    unfold loadRegions at heq
    split at heq
    · cases heq
    · next hbase =>
      cases halloc : pmmAlloc m.pmm .segment g'.pages with
      | mk pmm f =>
        rw [halloc] at heq
        dsimp only at heq
        split at heq
        · cases heq
        · next hf =>
          have ht := pmmAlloc_takes halloc hf
          obtain ⟨base', l₁, hloads, -⟩ :=
            mapPages_loads (b := copied img g' f { m with pmm }) h hr g'.base_aligned g'.plain
            hown.1 ht g'.pages_ne_zero rfl
          change loadRegions r img regs _
            (mapPages r g'.base f g'.pageFlags g'.pages (copied img g' f { m with pmm })) = _ at heq
          obtain ⟨m₂, res, base'', l₂, heq₂, -, hloads₂, hres⟩ :=
            loadRegions_loads hloads.space hr img (given_own r img hown.2 _)
              (code ++ [⟨g'.base, BitVec.ofNat 64 (g'.pages * 0x1000)⟩])
          obtain ⟨rfl, rfl⟩ := Prod.mk.inj (heq₂.symm.trans heq)
          have hdone : given r img regs (mapPages r g'.base f g'.pageFlags g'.pages (copied img g' f { m with pmm })) =
            regs := by
            rcases hres with ⟨-, hdone, -⟩ | ⟨e, hres, -⟩
            · exact hdone
            · cases hres
          rw [hdone] at hloads₂
          have hl : l = l₂ ++ l₁ := by
            rw [hloads₂.refused, hloads.refused, ← List.append_assoc] at href
            exact (List.append_cancel_right href).symm
          rw [hl, List.mem_append, not_or] at hall
          cases earlier with
          | nil =>
            obtain ⟨rfl, rfl⟩ := List.cons.inj hregs
            have hfills := loadRegions_fills r img (code ++ [⟨g'.base, BitVec.ofNat 64 (g'.pages * 0x1000)⟩])
              (m := mapPages r g'.base f g'.pageFlags g'.pages (copied img g' f { m with pmm }))
              (fun g' hg' => hfits.2 g' ((List.takeWhile_sublist _).subset hg'))
            rw [heq₂] at hfills
            have hplaced := segment_placed h hr hown.1 ht hloads.refused hall.2
            exact ⟨f, (hplaced.loads hown.1 hfills hloads₂ hloads.space.total).mono fun u hu => ⟨trivial, hu⟩⟩
          | cons g'' earlier =>
            exact ih hloads.space hown.2 hfits.2 heq hloads₂.refused hall.1 (List.cons.inj hregs).2

/-! ## What the processor finds -/

def pfX (g : Ureg) : Bool := g.flags.getLsbD 0

def pfW (g : Ureg) : Bool := g.flags.getLsbD 1

theorem pageFlags_rights (g : Ureg) :
    user g.pageFlags = (pfX g || pfW g) ∧ writable g.pageFlags = (!pfX g && pfW g) ∧ noExec g.pageFlags = !pfX g := by
  unfold Ureg.pageFlags pfX pfW
  cases g.flags.getLsbD 0 <;> cases g.flags.getLsbD 1 <;> decide

/-- How far behind the first page of the segment the address is. -/
def offsetIn (g : Ureg) (u : BitVec 64) : Nat := (vpn u + (2 ^ 36 - vpn g.base)) % 2 ^ 36 * 4096 + u.toNat % 4096

theorem offsetIn_page {u : BitVec 64} {i : Nat} (hi : i < 2 ^ 36) (h : vpn u = vpn (page g.base i)) :
    offsetIn g u = i * 4096 + u.toNat % 4096 := by
  have hbase : vpn g.base < 2 ^ 36 := Nat.mod_lt _ (by decide)
  rw [vpn_page g.base_aligned] at h
  unfold offsetIn
  omega

theorem has_iff (hpages : g.pages ≤ 2 ^ 36) (u : BitVec 64) : Has g.region u ↔ offsetIn g u < g.pages * 4096 := by
  have hbase : vpn g.base < 2 ^ 36 := Nat.mod_lt _ (by decide)
  have hu : vpn u < 2 ^ 36 := Nat.mod_lt _ (by decide)
  unfold Has
  rw [Ureg.region, pagesOf_region (by omega)]
  constructor
  · rintro ⟨i, hi, hvpn⟩
    rw [offsetIn_page (by omega) hvpn]
    omega
  · intro h
    refine ⟨(vpn u + (2 ^ 36 - vpn g.base)) % 2 ^ 36, ?_, ?_⟩
    · unfold offsetIn at h
      omega
    · refine Eq.trans ?_ (vpn_page g.base_aligned _).symm
      omega

theorem covers_same {umap : List Proc.Region} {u v : BitVec 64} (h : vpn v = vpn u) :
    Covers umap v ↔ Covers umap u := by
  unfold Covers Has
  rw [h]

/-- At the address, ring 3 finds the segment. It writes what it does not execute, and reaches it if it may do one of
these. -/
structure Finds (img : Nat → BitVec 8) (g : Ureg) (m : Vm) (pml4 : Nat) (u : BitVec 64) (x : Boot.Reach) : Prop where
  walk : Boot.translate m.tables pml4 u = some x
  byte : m.bytes x.phys = content img g (offsetIn g u)
  user : x.user = (pfX g || pfW g)
  writable : x.writable = (!pfX g && pfW g)
  executes : Boot.executes m.tables pml4 u = pfX g

theorem Placed.finds {Kept : BitVec 64 → Prop} (h : Placed roots k img Kept g f m)
    (hspace : Space slots kernel roots base m) (hr : roots k = some r) (hown : Own slots [g.region]) {u : BitVec 64}
    (hu : Has g.region u) (hkept : ∀ v, vpn v = vpn u → Kept v) (hcanonical : Boot.canonical u = true) :
    ∃ x, Finds img g m r u x := by
  have htotal := hspace.total
  have hlt := h.lt
  have hin := (has_iff (by omega) u).mp hu
  have hslot := covers_slot hown (covers_single.mpr hu)
  unfold Has at hu
  rw [Ureg.region, pagesOf_region (by omega)] at hu
  obtain ⟨i, hi, hvpn⟩ := hu
  have hoffset := offsetIn_page (by omega) hvpn
  have hpte : pte roots m k u = entry (pageAddr (f + i)) g.pageFlags :=
    (pte_congr hvpn).trans (h.mapped i hi (hkept _ hvpn.symm))
  have hpresent : present (pte roots m k u) = true := by
    rw [hpte, present_entry, g.plain.present]
  obtain ⟨huser, hwritable, hnoExec⟩ := pageFlags_rights g
  refine ⟨⟨Boot.inPage 12 (pte roots m k u) u, writable (pte roots m k u), user (pte roots m k u)⟩, ?_, ?_, ?_, ?_, ?_⟩
  · rw [Boot.translate_own hspace hr hslot, hcanonical, hpresent]
    rfl
  · have hphys : Boot.inPage 12 (pte roots m k u) u = f * 0x1000 + offsetIn g u := by
      have hframe : Boot.inPage 12 (pte roots m k u) u / 4096 = f + i := by
        rw [Boot.inPage_page, hpte, pfn_entry (by omega) g.plain.addr]
      have hrest : Boot.inPage 12 (pte roots m k u) u % 4096 = u.toNat % 4096 := by
        unfold Boot.inPage
        omega
      omega
    rw [hphys, h.bytes _ hin]
  · rw [hpte, user_entry, huser]
  · rw [hpte, writable_entry, hwritable]
  · rw [Boot.executes_own hspace hr hslot hpresent, hpte, noExec_entry, hnoExec, Bool.not_not]

end

/-! ## The process -/

section

variable {slots : Nat → Bool} {kernel : Nat} {base : Nat → Prop} {s t : Sys} {img : Nat → BitVec 8} {regs : List Ureg}

/-- The process that a creation made. On each page it has the last of the segments with this page, unless the page is
one of the stack. -/
structure Made (slots : Nat → Bool) (img : Nat → BitVec 8) (regs : List Ureg) (e : Int) (t : Sys) (idx : Nat) :
    Prop where
  pid : ((t.procs idx).pid : Int) = e
  ready : Ready t idx
  user : (t.procs idx).isUser = true
  umap : (t.procs idx).umap = regionsUmap regs
  pages : ∀ g ∈ regs, g.pages ≤ 2 ^ 36
  found : ∀ earlier g later, regs = earlier ++ g :: later → ∀ u, Has g.region u → ¬ Covers (later.map Ureg.region) u →
    ¬ Has (userStack (regs.map Ureg.region)) u → Boot.canonical u = true →
    ∃ x, Finds img g t.vm (t.procs idx).cr3 u x
  rest : ∀ u, slots (idxL4 u) = false → ¬ Covers (regionsUmap regs) u →
    Boot.translate t.vm.tables (t.procs idx).cr3 u = none

theorem loadRegions_code {pml4 : Nat} {code code' : List Proc.Region} {m m' : Vm}
    (heq : loadRegions pml4 img regs code m = (m', .ok code')) : code' = code ++ regs.map Ureg.region := by
  induction regs generalizing code m with
  | nil =>
    cases heq
    simp
  | cons g regs ih =>
    unfold loadRegions at heq
    split at heq
    · cases heq
    · cases halloc : pmmAlloc m.pmm .segment g.pages with
      | mk pmm f =>
        rw [halloc] at heq
        dsimp only at heq
        split at heq
        · cases heq
        · rw [ih heq, List.append_assoc]
          rfl

theorem loadRegions_error {pml4 : Nat} {code : List Proc.Region} {m m' : Vm} {e : Int}
    (heq : loadRegions pml4 img regs code m = (m', .error e)) : e < 0 := by
  induction regs generalizing code m with
  | nil => cases heq
  | cons g regs ih =>
    unfold loadRegions at heq
    split at heq
    · cases heq
      decide
    · cases halloc : pmmAlloc m.pmm .segment g.pages with
      | mk pmm f =>
        rw [halloc] at heq
        dsimp only at heq
        split at heq
        · cases heq
          decide
        · exact ih heq

theorem createUserRegions_steps {roots : Nat → Option Nat} {B : Sys → Nat → Prop} {room : Option Nat}
    (hnull : s.vm.pmm.used 0 = true) (hroom : ∀ p ∈ room, p ≠ 0)
    (hroot : ∀ idx, findFree s = some idx → roots idx = none)
    (hspace : ∀ s' stack, Stacked room { s with nextPid := s.nextPid + 1 } s' stack →
    Space slots kernel roots (B s') s'.vm)
    {zone : Nat → BitVec 8} {e : Int} (ht : createUserRegions kernel room img regs zone s = (t, e)) (he : 0 < e) :
    ∃ idx s' stack m pm m₁ m₂ q, Begun slots kernel roots (B s') room s idx s' stack pm m ∧
      loadRegions pm img regs [] m = (m₁, .ok (regs.map Ureg.region)) ∧
      enterUser pm (regs.map Ureg.region) zone
        { s.procs idx with present := true, terminated := false, pid := s.nextPid, stack, cr3 := pm } m₁ =
          (m₂, some q) ∧
      t = { s' with vm := m₂ }.set idx q ∧ e = q.pid := by
  unfold createUserRegions at ht
  split at ht
  · cases ht
    omega
  cases hfree : findFree s with
  | none =>
    rw [hfree] at ht
    cases ht
    omega
  | some idx =>
    rw [hfree] at ht
    dsimp only at ht
    rcases begin_cases hnull hroom hfree (hroot idx hfree) hspace with heq |
      ⟨s', stack, heq, hs, heq' | ⟨m, pm, heq', hb⟩⟩
    · rw [heq] at ht
      dsimp only at ht
      rw [if_pos rfl] at ht
      cases ht
      omega
    · rw [heq] at ht
      dsimp only at ht
      rw [if_neg hs.ne, heq'] at ht
      dsimp only at ht
      rw [if_pos rfl] at ht
      cases ht
      omega
    · rw [heq] at ht
      dsimp only at ht
      rw [if_neg hs.ne, heq'] at ht
      dsimp only at ht
      rw [if_neg hb.pm_ne] at ht
      cases hload : loadRegions pm img regs [] m with
      | mk m₁ res =>
        rw [hload] at ht
        cases res with
        | error e' =>
          dsimp only at ht
          have hneg := loadRegions_error hload
          cases ht
          omega
        | ok code =>
          obtain rfl := loadRegions_code hload
          dsimp only at ht
          rw [List.nil_append] at ht hload
          cases henter : enterUser pm (regs.map Ureg.region) zone
              { s.procs idx with present := true, terminated := false, pid := s.nextPid, stack, cr3 := pm } m₁ with
          | mk m₂ q =>
            rw [henter] at ht
            cases q with
            | none =>
              cases ht
              omega
            | some q =>
              cases ht
              exact ⟨idx, s', stack, m, pm, m₁, m₂, q, hb, hload, henter, rfl, rfl⟩

theorem createUserRegions_made (h : Rooted slots kernel base s) (hchunks : ∀ f ∈ s.chunks, base f) {room : Option Nat}
    (hroom : ∀ p ∈ room, p ≠ 0) (hown : Own slots (regionsUmap regs)) (hfits : ∀ g ∈ regs, g.Fits)
    {zone : Nat → BitVec 8} {e : Int} (ht : createUserRegions kernel room img regs zone s = (t, e)) (he : 0 < e) :
    ∃ idx, Made slots img regs e t idx := by
  obtain ⟨boot, -, hnull, -, hspace⟩ := h.begins hchunks
  obtain ⟨idx, s', stack, m, pm, m₁, m₂, q, hb, hload, henter, rfl, rfl⟩ :=
    createUserRegions_steps hnull hroom (fun idx hfree => if_pos hfree) hspace ht he
  obtain ⟨hsegments, hstack⟩ := own_append.mp hown
  obtain ⟨m₁', res, base₁, l, heq, -, hloads, hres⟩ :=
    loadRegions_loads hb.space hb.root img (given_own pm img hsegments m) []
  obtain ⟨rfl, rfl⟩ := Prod.mk.inj (heq.symm.trans hload)
  obtain ⟨-, hdone, -, hloadable⟩ | ⟨e, hres, -⟩ := hres
  swap
  · cases hres
  rw [hdone] at hloads
  generalize hp : { s.procs idx with present := true, terminated := false, pid := s.nextPid, stack, cr3 := pm } = p
    at henter
  obtain ⟨m₂', henter', -⟩ | ⟨m₂', base₂, l', henter', hstacked, -⟩ :=
    enterUser_loads hloads.space hb.root hstack zone p
  · cases henter'.symm.trans henter
  obtain ⟨rfl, hq⟩ := Prod.mk.inj (henter'.symm.trans henter)
  obtain rfl := Option.some.inj hq
  -- with a table refused there would have been no frames for the stack
  have hall : .table ∉ l := by
    refine fun hmem => hstacked.taken (page (maxEnd (regs.map Ureg.region) + 0x10000) 0) ?_ (hloads.full hmem)
    exact (covers_region (by decide)).mpr ⟨0, by decide, rfl⟩
  have hfills := enterUser_fills pm (regs.map Ureg.region) zone p m₁'
  rw [henter'] at hfills
  subst hp
  refine ⟨idx, by rw [Sys.set_same], ⟨(findFree_spec hb.found).1, by rw [Sys.set_same], by rw [Sys.set_same]⟩,
    by rw [Sys.set_same], by rw [Sys.set_same]; rfl, fun g hg => ?_,
    fun earlier g later hregs u hu hlater hno hcanonical => ?_, fun u hslot hno => ?_⟩
  · have htotal := hb.space.total
    have hpages := (hloadable g hg).2
    omega
  · rw [Sys.set_same, Sys.set_vm]
    have hown' : Own slots [g.region] := by
      refine fun g' hg' => List.mem_singleton.mp hg' ▸ hsegments _ (List.mem_map_of_mem ?_)
      rw [hregs]
      simp
    obtain ⟨f, hf⟩ := loadRegions_placed hb.space hb.root hsegments hfits hload hloads.refused hall hregs
    refine (hf.loads hown' hfills hstacked hloads.space.total).finds hstacked.space hb.root hown' hu (fun v hv => ?_)
      hcanonical
    exact ⟨fun hc => hlater ((covers_same hv).mp hc), fun hc => hno (covers_single.mp ((covers_same hv).mp hc))⟩
  · rw [Sys.set_same, Sys.set_vm]
    rw [regionsUmap, covers_append, not_or] at hno
    have hpte := (hstacked.rest idx u hslot fun _ => hno.2).trans
      ((hloads.rest idx u hslot fun _ => hno.1).trans (hb.opens.pte hslot))
    rw [Boot.translate_own hstacked.space hb.root hslot, hpte, show present (0 : BitVec 64) = false from present_zero,
      Bool.and_false]
    rfl

end

end Siathos.Elf
