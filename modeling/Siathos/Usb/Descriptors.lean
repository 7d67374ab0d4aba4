import Mathlib.Data.Nat.Find
import Siathos.Lib.CStr

/-!
# The descriptors of a keyboard (`xhci_get_descriptors`)

The driver reads the configuration of a device and walks over its descriptors up to the first interrupt
IN endpoint. The device decides about the length of each descriptor.
-/

open Lib

namespace Siathos.Usb

/-! ## The driver -/

/-- `hcfg_mps` and `hcfg_itv`. -/
structure Hcfg where
  mps : UInt8
  itv : UInt8
  deriving DecidableEq, Repr

/-- What the parser leaves: the result, the variables, and where it has read `cfg`. -/
structure Parsed where
  ret : Int
  hcfg : Hcfg
  reads : List Nat
  deriving DecidableEq, Repr

/-- The configuration as the parser sees it. Behind the 512 bytes of `cfg` lies the stack. -/
structure Config where
  byte : Nat → UInt8
  total : Nat

namespace Config

variable (cfg : Config)

def len (off : Nat) : Nat := (cfg.byte off).toNat

/-- `ea` and `at`. -/
def ea (off : Nat) : UInt8 := cfg.byte (off + 2)

def attrs (off : Nat) : UInt8 := cfg.byte (off + 3)

/-- The 16 bits of the max packet size. -/
def mps (off : Nat) : Nat := (cfg.byte (off + 4)).toNat + 256 * (cfg.byte (off + 5)).toNat

def itv (off : Nat) : UInt8 := cfg.byte (off + 6)

/-- `(ea&0x80)&&(at&3)==3`. -/
def interruptIn (off : Nat) : Bool := cfg.ea off &&& 0x80 != 0 && cfg.attrs off &&& 3 == 3

/-- The loop, with fuel for its turns. -/
def walk (hcfg : Hcfg) : Nat → Nat → Option Parsed
  | fuel, off =>
    if off + 1 < cfg.total then
      match fuel with
      | 0 => none
      | fuel + 1 =>
        if cfg.byte off = 0 then some ⟨-4, hcfg, [off, off + 1]⟩
        else if cfg.byte (off + 1) = 5 then
          if cfg.interruptIn off then
            some ⟨0, ⟨UInt8.ofNat (cfg.mps off), cfg.itv off⟩,
              [off, off + 1, off + 2, off + 3, off + 4, off + 5, off + 6]⟩
          else (walk hcfg fuel (off + cfg.len off)).map fun p =>
            { p with reads := [off, off + 1, off + 2, off + 3] ++ p.reads }
        else (walk hcfg fuel (off + cfg.len off)).map fun p => { p with reads := [off, off + 1] ++ p.reads }
    else some ⟨-4, hcfg, []⟩

end Config

/-- The bytes of a transfer lie over what the buffer held. -/
def overlay (mem : Nat → UInt8) (bytes : List UInt8) : Nat → UInt8 := fun i => bytes.getD i (mem i)

/-- The four control transfers: what the device sends, or nothing where `ep0_ctrl` fails. -/
structure Transfers where
  device : Option (List UInt8)
  deviceAgain : Option (List UInt8)
  header : Option (List UInt8)
  config : Option (List UInt8)

/-- `cfg` after the transfer of its header. -/
def cfgHeader (stack : Nat → UInt8) (header : List UInt8) : Nat → UInt8 :=
  overlay (fun i => if i < 512 then 0 else stack i) (header.take 9)

def cfgTotal (stack : Nat → UInt8) (header : List UInt8) : Nat :=
  min ((cfgHeader stack header 2).toNat + 256 * (cfgHeader stack header 3).toNat) 512

def configOf (stack : Nat → UInt8) (header config : List UInt8) : Config where
  byte := overlay (cfgHeader stack header) (config.take (cfgTotal stack header))
  total := cfgTotal stack header

/-- `xhci_get_descriptors`. The second transfer of the device descriptor may fail. -/
def xhciGetDescriptors (t : Transfers) (stack : Nat → UInt8) (hcfg : Hcfg) : Option Parsed :=
  match t.device with
  | none => some ⟨-1, hcfg, []⟩
  | some _ =>
    match t.header with
    | none => some ⟨-2, hcfg, []⟩
    | some header =>
      match t.config with
      | none => some ⟨-3, hcfg, []⟩
      | some config => (configOf stack header config).walk hcfg (cfgTotal stack header) 0

/-! ## The descriptors of a configuration -/

namespace Config

variable {cfg : Config}

/-- The lengths lead from one header to the other. -/
inductive Reaches (cfg : Config) : Nat → Nat → Prop
  | refl (off : Nat) : Reaches cfg off off
  | next {off dst : Nat} : off + 1 < cfg.total → cfg.byte off ≠ 0 → Reaches cfg (off + cfg.len off) dst →
      Reaches cfg off dst

/-- The header of an endpoint descriptor. -/
structure Endpoint (cfg : Config) (off : Nat) : Prop where
  inside : off + 1 < cfg.total
  nonzero : cfg.byte off ≠ 0
  type : cfg.byte (off + 1) = 5

/-- The driver takes the descriptor for an interrupt IN endpoint. -/
structure Marked (cfg : Config) (off : Nat) : Prop where
  endpoint : cfg.Endpoint off
  interruptIn : cfg.interruptIn off = true

/-- An interrupt IN endpoint with all its fields in the configuration. -/
structure WellFormed (cfg : Config) (off : Nat) : Prop where
  marked : cfg.Marked off
  whole : 7 ≤ cfg.len off
  ends : off + cfg.len off ≤ cfg.total

/-- The first header of the kind, on the way from `start`. -/
structure First (cfg : Config) (start : Nat) (P : Nat → Prop) (off : Nat) : Prop where
  reached : cfg.Reaches start off
  holds : P off
  least : ∀ k, cfg.Reaches start k → P k → off ≤ k

/-- The parser reads the configuration alone, succeeds where it has an interrupt IN endpoint, and keeps the
first one's fields. -/
structure ParsesRight (cfg : Config) (p : Parsed) : Prop where
  inside : ∀ o ∈ p.reads, o < cfg.total
  success : p.ret = 0 ↔ ∃ w, cfg.Reaches 0 w ∧ cfg.WellFormed w
  recorded : ∀ w, cfg.First 0 cfg.WellFormed w → p.hcfg.mps.toNat = cfg.mps w ∧ p.hcfg.itv = cfg.itv w

/-- The endpoint headers up to the first marked one have their four bytes in the configuration. The first
marked one has seven there, and its interval and the low byte of its size are the interval and the size
of the first well-formed one. -/
structure Sound (cfg : Config) : Prop where
  headers : ∀ k, cfg.Reaches 0 k → cfg.Endpoint k → (∀ m, cfg.First 0 cfg.Marked m → k ≤ m) → k + 3 < cfg.total
  marked : ∀ m, cfg.First 0 cfg.Marked m → m + 6 < cfg.total ∧
    ∃ w, cfg.First 0 cfg.WellFormed w ∧ cfg.mps w = cfg.mps m % 256 ∧ cfg.itv w = cfg.itv m

/-! ## The walk -/

theorem Reaches.le {off dst : Nat} (h : cfg.Reaches off dst) : off ≤ dst := by
  induction h with
  | refl => exact Nat.le_refl _
  | next _ _ _ ih => omega

theorem reaches_stop {off dst : Nat} (h : ¬ (off + 1 < cfg.total ∧ cfg.byte off ≠ 0)) :
    cfg.Reaches off dst ↔ dst = off := by
  constructor
  · intro hreach
    cases hreach with
    | refl => rfl
    | next hin hne _ => exact absurd ⟨hin, hne⟩ h
  · rintro rfl
    exact Reaches.refl _

theorem reaches_next {off dst : Nat} (hin : off + 1 < cfg.total) (hne : cfg.byte off ≠ 0) :
    cfg.Reaches off dst ↔ dst = off ∨ cfg.Reaches (off + cfg.len off) dst := by
  constructor
  · intro hreach
    cases hreach with
    | refl => exact Or.inl rfl
    | next _ _ hrest => exact Or.inr hrest
  · rintro (rfl | hrest)
    · exact Reaches.refl _
    · exact Reaches.next hin hne hrest

theorem len_pos {off : Nat} (hne : cfg.byte off ≠ 0) : 0 < cfg.len off := by
  refine Nat.pos_of_ne_zero fun hzero => hne (UInt8.toNat_inj.mp ?_)
  simpa [len] using hzero

theorem First.unique {start m k : Nat} {P : Nat → Prop} (hm : cfg.First start P m) (hk : cfg.First start P k) : m = k :=
  Nat.le_antisymm (hm.least k hk.reached hk.holds) (hk.least m hm.reached hm.holds)

theorem first_next {off m : Nat} {P : Nat → Prop} (hin : off + 1 < cfg.total) (hne : cfg.byte off ≠ 0) (hP : ¬ P off) :
    cfg.First off P m ↔ cfg.First (off + cfg.len off) P m := by
  constructor
  · rintro ⟨hreach, hm, hleast⟩
    rcases (reaches_next hin hne).mp hreach with rfl | hrest
    · exact absurd hm hP
    · exact ⟨hrest, hm, fun k hk => hleast k (Reaches.next hin hne hk)⟩
  · rintro ⟨hreach, hm, hleast⟩
    refine ⟨Reaches.next hin hne hreach, hm, fun k hk hPk => ?_⟩
    rcases (reaches_next hin hne).mp hk with rfl | hrest
    · exact absurd hPk hP
    · exact hleast k hrest hPk

/-- What the loop leaves from `start` on. -/
structure Walked (cfg : Config) (start : Nat) (p : Parsed) : Prop where
  found : p.ret = 0 ↔ ∃ m, cfg.First start cfg.Marked m
  kept : ∀ m, cfg.First start cfg.Marked m → p.hcfg = ⟨UInt8.ofNat (cfg.mps m), cfg.itv m⟩
  inside : (∀ o ∈ p.reads, o < cfg.total) ↔
    (∀ k, cfg.Reaches start k → cfg.Endpoint k → (∀ m, cfg.First start cfg.Marked m → k ≤ m) → k + 3 < cfg.total) ∧
    ∀ m, cfg.First start cfg.Marked m → m + 6 < cfg.total

theorem walked_end {off : Nat} {p : Parsed} (h : ¬ (off + 1 < cfg.total ∧ cfg.byte off ≠ 0)) (hret : p.ret ≠ 0)
    (hreads : ∀ o ∈ p.reads, o < cfg.total) : cfg.Walked off p := by
  have hnone : ∀ k, cfg.Reaches off k → ¬ cfg.Endpoint k := by
    intro k hk hend
    obtain rfl := (reaches_stop h).mp hk
    exact h ⟨hend.inside, hend.nonzero⟩
  have hfirst : ∀ m, ¬ cfg.First off cfg.Marked m := fun m hm => hnone m hm.reached hm.holds.endpoint
  refine ⟨?_, fun m hm => absurd hm (hfirst m), ?_⟩
  · simp [hret, hfirst]
  · exact iff_of_true hreads ⟨fun k hk hend => absurd hend (hnone k hk), fun m hm => absurd hm (hfirst m)⟩

theorem Walked.skip {off : Nat} {p : Parsed} (hin : off + 1 < cfg.total) (hne : cfg.byte off ≠ 0)
    (hmarked : ¬ cfg.Marked off) (h : cfg.Walked (off + cfg.len off) p) {reads : List Nat}
    (hreads : (∀ o ∈ reads, o < cfg.total) ↔ (cfg.Endpoint off → off + 3 < cfg.total)) :
    cfg.Walked off { p with reads := reads ++ p.reads } := by
  have hfirst (m : Nat) : cfg.First off cfg.Marked m ↔ cfg.First (off + cfg.len off) cfg.Marked m :=
    first_next hin hne hmarked
  refine ⟨?_, ?_, ?_⟩
  · simp only [hfirst]
    exact h.found
  · simp only [hfirst]
    exact h.kept
  · simp only [hfirst, List.forall_mem_append, hreads, h.inside, reaches_next hin hne]
    constructor
    · rintro ⟨hhere, hrest, hlast⟩
      refine ⟨fun k hk hend hbefore => ?_, hlast⟩
      rcases hk with rfl | hk
      · exact hhere hend
      · exact hrest k hk hend hbefore
    · rintro ⟨hall, hlast⟩
      refine ⟨fun hend => hall off (Or.inl rfl) hend fun m hm => ?_, fun k hk => hall k (Or.inr hk), hlast⟩
      have := hm.reached.le
      omega

theorem walked_marked {off : Nat} (h : cfg.Marked off) : cfg.Walked off ⟨0, ⟨UInt8.ofNat (cfg.mps off), cfg.itv off⟩,
    [off, off + 1, off + 2, off + 3, off + 4, off + 5, off + 6]⟩ := by
  have hfirst : cfg.First off cfg.Marked off := ⟨Reaches.refl off, h, fun k hk _ => hk.le⟩
  refine ⟨iff_of_true rfl ⟨off, hfirst⟩, fun m hm => by rw [hm.unique hfirst], ?_⟩
  constructor
  · intro hreads
    have hlast := hreads (off + 6) (by simp)
    refine ⟨fun k _ _ hbefore => ?_, fun m hm => by rw [hm.unique hfirst]; exact hlast⟩
    have := hbefore off hfirst
    omega
  · rintro ⟨-, hlast⟩ o ho
    have := hlast off hfirst
    simp only [List.mem_cons, List.not_mem_nil, or_false] at ho
    omega

theorem walk_spec (cfg : Config) (hcfg : Hcfg) (fuel off : Nat) (hfuel : cfg.total - off ≤ fuel) :
    ∃ p, cfg.walk hcfg fuel off = some p ∧ cfg.Walked off p := by
  induction fuel generalizing off with
  | zero =>
    rw [walk, if_neg (by omega)]
    exact ⟨_, rfl, walked_end (by omega) (by simp) (by simp)⟩
  | succ fuel ih =>
    rw [walk]
    by_cases hin : off + 1 < cfg.total
    · rw [if_pos hin]
      split_ifs with hzero htype hmarked
      · exact ⟨_, rfl, walked_end (fun h => h.2 hzero) (by simp) (by simp; omega)⟩
      · exact ⟨_, rfl, walked_marked ⟨⟨hin, hzero, htype⟩, hmarked⟩⟩
      · have hpos := len_pos hzero
        obtain ⟨p, hp, hwalked⟩ := ih (off + cfg.len off) (by omega)
        refine ⟨_, by rw [hp]; rfl, hwalked.skip hin hzero (fun h => hmarked h.interruptIn) ?_⟩
        have hend : cfg.Endpoint off := ⟨hin, hzero, htype⟩
        simp [hend]
        omega
      · have hpos := len_pos hzero
        obtain ⟨p, hp, hwalked⟩ := ih (off + cfg.len off) (by omega)
        refine ⟨_, by rw [hp]; rfl, hwalked.skip hin hzero (fun h => htype h.endpoint.type) ?_⟩
        have hend : ¬ cfg.Endpoint off := fun h => htype h.type
        simp [hend]
        omega
    · rw [if_neg hin]
      exact ⟨_, rfl, walked_end (fun h => hin h.1) (by simp) (by simp)⟩

/-! ## What the walk finds -/

theorem exists_first {start k : Nat} {P : Nat → Prop} (hk : cfg.Reaches start k) (hP : P k) :
    ∃ m, cfg.First start P m := by
  classical
  have hex : ∃ k, cfg.Reaches start k ∧ P k := ⟨k, hk, hP⟩
  exact ⟨Nat.find hex, (Nat.find_spec hex).1, (Nat.find_spec hex).2, fun j hj hPj => Nat.find_min' hex ⟨hj, hPj⟩⟩

theorem Walked.right_iff {p : Parsed} (h : cfg.Walked 0 p) : cfg.ParsesRight p ↔ cfg.Sound := by
  constructor
  · rintro ⟨hinside, hsuccess, hrecorded⟩
    obtain ⟨hheaders, hlast⟩ := h.inside.mp hinside
    refine ⟨hheaders, fun m hm => ⟨hlast m hm, ?_⟩⟩
    obtain ⟨k, hk, hwell⟩ := hsuccess.mp (h.found.mpr ⟨m, hm⟩)
    obtain ⟨w, hw⟩ := exists_first hk hwell
    obtain ⟨hmps, hitv⟩ := hrecorded w hw
    rw [h.kept m hm] at hmps hitv
    exact ⟨w, hw, by simpa using hmps.symm, hitv.symm⟩
  · rintro ⟨hheaders, hmarked⟩
    refine ⟨h.inside.mpr ⟨hheaders, fun m hm => (hmarked m hm).1⟩, ?_, fun w hw => ?_⟩
    · rw [h.found]
      constructor
      · rintro ⟨m, hm⟩
        obtain ⟨-, w, hw, -⟩ := hmarked m hm
        exact ⟨w, hw.reached, hw.holds⟩
      · rintro ⟨w, hreach, hwell⟩
        exact exists_first hreach hwell.marked
    · obtain ⟨m, hm⟩ := exists_first hw.reached hw.holds.marked
      obtain ⟨-, w', hw', hmps, hitv⟩ := hmarked m hm
      obtain rfl := hw.unique hw'
      rw [h.kept m hm]
      exact ⟨by simp [hmps], hitv.symm⟩

end Config

/-- The parser ends on whatever a device sends, and is right exactly on a sound configuration. -/
theorem getDescriptors_right_iff (device header config : List UInt8) (again : Option (List UInt8))
    (stack : Nat → UInt8) (hcfg : Hcfg) :
    ∃ p, xhciGetDescriptors ⟨some device, again, some header, some config⟩ stack hcfg = some p ∧
      ((configOf stack header config).ParsesRight p ↔ (configOf stack header config).Sound) := by
  obtain ⟨p, hp, hwalked⟩ := (configOf stack header config).walk_spec hcfg (cfgTotal stack header) 0 (Nat.le_refl _)
  exact ⟨p, hp, hwalked.right_iff⟩

/-- A configuration with an interrupt IN endpoint of 512 bytes. -/
def wideConfig : List UInt8 := [9, 2, 16, 0, 1, 1, 0, 0x80, 50, 7, 5, 0x81, 3, 0, 2, 4]

theorem wideConfig_first : (configOf (fun _ => 0) wideConfig wideConfig).First 0
    (configOf (fun _ => 0) wideConfig wideConfig).WellFormed 9 := by
  have hin : 0 + 1 < (configOf (fun _ => 0) wideConfig wideConfig).total := by decide
  have hne : (configOf (fun _ => 0) wideConfig wideConfig).byte 0 ≠ 0 := by decide
  refine ⟨.next hin hne (.refl 9), ⟨⟨⟨by decide, by decide, by decide⟩, by decide⟩, by decide, by decide⟩,
    fun k hk hwell => ?_⟩
  rcases (Config.reaches_next hin hne).mp hk with rfl | hrest
  · have htype := hwell.marked.endpoint.type
    revert htype
    decide
  · exact hrest.le

/-- The variable for the size keeps the low byte of 512. -/
theorem wideConfig_wrong :
    ¬ ∀ p, xhciGetDescriptors ⟨some [], none, some wideConfig, some wideConfig⟩ (fun _ => 0) ⟨8, 1⟩ =
    some p → (configOf (fun _ => 0) wideConfig wideConfig).ParsesRight p := by
  intro h
  have hright := h ⟨0, ⟨0, 4⟩, [0, 1, 9, 10, 11, 12, 13, 14, 15]⟩ (by decide +kernel)
  have hmps := (hright.recorded 9 wideConfig_first).1
  revert hmps
  decide +kernel

end Siathos.Usb
