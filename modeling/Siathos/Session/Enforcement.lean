import Siathos.Fs.Mediation
import Siathos.Nomos.Specific
import Siathos.Syscall.Live
import Siathos.Session.Rights

/-!
# What contracts enforce

`vfs_check_cap` knows reading and writing only: it takes the right to execute for a right to read, and
modules of the kernel start without it.
-/

open Lib Siathos.Nomos Siathos.Fs Siathos.Syscall

namespace Siathos.Session

/-! ## What the check means for a contract -/

theorem check_read {p : Policy} {q : CStr} (h : vfsCheckCap p q capFsRead = true) :
    ∀ c ∈ synallagmaContractFor p.synallagma q,
      synallagmaConsented p.synallagma c.caminho = true ∧ (c.leitura = true ∨ c.execucao = true) := by
  intro c hc
  unfold vfsCheckCap at h
  rw [show synallagmaContractFor p.synallagma q = some c from hc] at h
  simp only [show (capFsRead &&& (capFsWrite ||| capIdiosWrite ||| capNomosWrite) ≠ 0) = False from by decide,
    decide_false] at h
  split_ifs at h with h1 h2 h3
  all_goals
    simp_all only [Bool.false_and, Bool.not_false, Bool.true_and, Bool.false_eq_true, not_false_eq_true,
      Bool.not_eq_true', Bool.and_eq_true, not_and, Bool.not_eq_false, true_and]
    by_cases hl : c.leitura = true
    · exact Or.inl hl
    · exact Or.inr (h3 (by simpa using hl))

theorem check_write {p : Policy} {q : CStr} (h : vfsCheckCap p q capFsWrite = true) :
    Lawful p.synallagma (·.escrita) q := by
  rw [lawful_iff]
  intro c hc
  unfold vfsCheckCap at h
  rw [show synallagmaContractFor p.synallagma q = some c from hc] at h
  simp only [show (capFsWrite &&& (capFsWrite ||| capIdiosWrite ||| capNomosWrite) ≠ 0) = True from by decide,
    decide_true] at h
  split_ifs at h with h1 h2
  all_goals
    simp_all

theorem lawful_of_read {p : Policy} {q : CStr} (h : vfsCheckCap p q capFsRead = true)
    (right : Contract → Bool) : Lawful p.synallagma right q ↔
      ∀ c ∈ synallagmaContractFor p.synallagma q, right c = true := by
  rw [lawful_iff]
  constructor
  · intro hl c hc
    exact (hl c hc).2
  · intro hr c hc
    exact ⟨(check_read h c hc).1, hr c hc⟩

/-! ## Actions on files -/

inductive Action
  | read (path : CStr) (max : Nat)
  | list (path : CStr) (max : Nat)
  | openPath (path : CStr)
  | write (op : VfsOp)
  | exec (path : CStr)

/-- The operation ends with `FS_OK`. -/
def writes (kmallocOk : Bool) (p : Policy) (ns : Nodes) (cwd : CStr) : VfsOp → Bool
  | .create path type => (vfsCreate p ns cwd path type).isSome
  | .mkdir path => (vfsMkdir p ns cwd path).isSome
  | .write path data => (vfsWrite kmallocOk p ns cwd path data).2
  | .remove path => (vfsRemove p ns cwd path).isSome
  | .copy src dst => (vfsCopy kmallocOk p ns cwd src dst).2
  | .move src dst => (vfsMove kmallocOk p ns cwd src dst).2

/-- The normalized path is one that the operation is meant to write. -/
def Targets (cwd q : CStr) : VfsOp → Prop
  | .create path _ | .mkdir path | .write path _ | .remove path | .copy _ path =>
    vfsNormalize cwd path fsNameMax = some q
  | .move src dst => vfsNormalize cwd src fsNameMax = some q ∨ vfsNormalize cwd dst fsNameMax = some q

/-- The operation changes what the path holds, or succeeds on it. -/
def ActsOn (kmallocOk : Bool) (p : Policy) (ns : Nodes) (cwd : CStr) (op : VfsOp) (q : CStr) : Prop :=
  nodesAt (op.run kmallocOk p ns cwd) q ≠ nodesAt ns q ∨
    (writes kmallocOk p ns cwd op = true ∧ Targets cwd q op)

variable (m : Machine) (env : Env) (cur : Nat) (k : Kernel) (cwd : CStr)

/-- The action on a path under a contract succeeds only where the contract, consented, grants it. -/
def Action.Enforced : Action → Prop
  | .read path max =>
    ∀ q, vfsNormalize cwd path fsNameMax = some q →
      (vfsRead (sysinfo env k) (policy cur k) k.nodes cwd path max).isSome = true →
        Lawful k.synallagma (·.leitura) q
  | .list path max =>
    ∀ q, vfsNormalize cwd path fsNameMax = some q →
      (vfsList (policy cur k) k.nodes cwd path max).isSome = true → Lawful k.synallagma (·.leitura) q
  | .openPath path =>
    ∀ q, vfsNormalize cwd path fsNameMax = some q →
      (vfsOpen (policy cur k) k.nodes cwd path).isSome = true → Lawful k.synallagma (·.leitura) q
  | .write op =>
    ∀ q, ActsOn env.kmallocOk (policy cur k) k.nodes cwd op q → Lawful k.synallagma (·.escrita) q
  | .exec path => (execUserPath m env cur path k).2.isSome = true → Lawful k.synallagma (·.execucao) path

/-- `vfs_read` finds something to read. -/
def Readable (q : CStr) (max : Nat) : Prop :=
  if vfsIsPseudo q = true then 0 < (pseudoText (sysinfo env k) q max).length
  else ∃ n, fsGet k.nodes q = some n ∧ n.type ≠ .dir

/-- The path names a module that the loader can start. -/
def EmbeddedRuns (q : CStr) : Prop :=
  ∃ name umap, embeddedName q = some name ∧ name ≠ [] ∧ (∃ mod ∈ m.mods, mod.1 = name) ∧
    env.loadEmbedded = .loaded umap ∧ (findFree k).isSome = true

/-- The path names a file that the loader can start. -/
def FileRuns (q : CStr) : Prop :=
  ∃ n umap, fsGet k.nodes q = some n ∧ n.type ≠ .dir ∧ 64 ≤ n.data.length ∧ env.kmallocOk = true ∧
    env.loadFile = .loaded umap ∧ (findFree k).isSome = true

/-- No contract on the path is asked for a right that the check takes another for. -/
def Action.Distinguished : Action → Prop
  | .read path max =>
    ∀ q ∈ vfsPath (policy cur k) cwd path capFsRead, Readable env k q max →
      ∀ c ∈ synallagmaContractFor k.synallagma q, c.leitura = true
  | .list path _ =>
    ∀ q ∈ vfsPath (policy cur k) cwd path capFsRead,
      ∀ c ∈ synallagmaContractFor k.synallagma q, c.leitura = true
  | .openPath path =>
    if path = [] then Lawful k.synallagma (·.leitura) (cut fsNameMax cwd)
    else ∀ q ∈ vfsPath (policy cur k) cwd path capFsRead, fsExists k.nodes q = true →
      ∀ c ∈ synallagmaContractFor k.synallagma q, c.leitura = true
  | .write (.move src dst) =>
    ∀ nsrc ∈ vfsPath (policy cur k) cwd src capFsRead, ∀ ndst ∈ vfsPath (policy cur k) cwd dst capFsWrite,
      Copyable k.nodes nsrc ndst → Fits env.kmallocOk k.nodes nsrc → nsrc ≠ root →
        ∀ c ∈ synallagmaContractFor k.synallagma nsrc, c.escrita = true
  | .write _ => True
  | .exec path =>
    path ≠ [] →
      (EmbeddedRuns m env k path → Lawful k.synallagma (·.execucao) path) ∧
      (FileRuns env k path → vfsCheckCap (policy cur k) path capFsRead = true →
        ∀ c ∈ synallagmaContractFor k.synallagma path, c.execucao = true)

variable {m env cur k cwd}

/-! ## Reading -/

theorem vfsRead_isSome {path : CStr} {max : Nat} :
    (vfsRead (sysinfo env k) (policy cur k) k.nodes cwd path max).isSome = true ↔
      ∃ q ∈ vfsPath (policy cur k) cwd path capFsRead, Readable env k q max := by
  unfold vfsRead Readable
  cases vfsPath (policy cur k) cwd path capFsRead with
  | none => simp
  | some q =>
    simp only [Option.bind_some, Option.mem_def, Option.some.injEq, exists_eq_left']
    by_cases hpseudo : vfsIsPseudo q = true
    · simp only [if_pos hpseudo]
      split
      case isTrue htext => exact iff_of_true rfl htext
      case isFalse htext => exact iff_of_false (by simp) htext
    · simp only [if_neg hpseudo, fsRead]
      cases fsGet k.nodes q with
      | none => simp
      | some n => by_cases hdir : n.type = .dir <;> simp [hdir]

theorem read_enforced (path : CStr) (max : Nat) :
    (Action.read path max).Enforced m env cur k cwd ↔ (Action.read path max).Distinguished m env cur k cwd := by
  unfold Action.Enforced Action.Distinguished
  simp only [vfsRead_isSome]
  constructor
  · intro h q hq hr
    exact (lawful_of_read (mem_vfsPath.mp hq).2 _).mp (h q (mem_vfsPath.mp hq).1 ⟨q, hq, hr⟩)
  · rintro h q hnorm ⟨q', hq, hr⟩
    obtain ⟨hnorm', hcheck⟩ := mem_vfsPath.mp hq
    obtain rfl : q = q' := Option.some.inj (hnorm.symm.trans hnorm')
    exact (lawful_of_read hcheck _).mpr (h q hq hr)

theorem list_enforced (path : CStr) (max : Nat) :
    (Action.list path max).Enforced m env cur k cwd ↔ (Action.list path max).Distinguished m env cur k cwd := by
  unfold Action.Enforced Action.Distinguished vfsList
  simp only [Option.isSome_map]
  constructor
  · intro h q hq
    obtain ⟨hnorm, hcheck⟩ := mem_vfsPath.mp hq
    exact (lawful_of_read hcheck _).mp (h q hnorm (Option.isSome_of_mem hq))
  · intro h q hnorm hsome
    obtain ⟨q', hq⟩ := Option.isSome_iff_exists.mp hsome
    obtain ⟨hnorm', hcheck⟩ := mem_vfsPath.mp hq
    obtain rfl : q = q' := Option.some.inj (hnorm.symm.trans hnorm')
    exact (lawful_of_read hcheck _).mpr (h q hq)

theorem vfsOpen_isSome {path : CStr} (hne : path ≠ []) :
    (vfsOpen (policy cur k) k.nodes cwd path).isSome = true ↔
      ∃ q ∈ vfsPath (policy cur k) cwd path capFsRead, fsExists k.nodes q = true := by
  unfold vfsOpen
  rw [if_neg hne]
  simp only [mem_vfsPath]
  cases hnorm : vfsNormalize cwd path fsNameMax with
  | none => simp
  | some norm =>
    have hlen := vfsNormalize_length hnorm
    simp only [Option.bind_some, if_neg (Nat.not_le.mpr hlen)]
    by_cases hex : fsExists k.nodes norm = true
    · by_cases hcheck : vfsCheckCap (policy cur k) norm capFsRead = true <;> simp [hex, hcheck]
    · simp [hex]

theorem open_enforced (path : CStr) :
    (Action.openPath path).Enforced m env cur k cwd ↔
      (Action.openPath path).Distinguished m env cur k cwd := by
  unfold Action.Enforced Action.Distinguished
  by_cases hpath : path = []
  · subst hpath
    simp [vfsOpen, vfsNormalize]
  simp only [if_neg hpath, vfsOpen_isSome hpath]
  constructor
  · intro h q hq hex
    obtain ⟨hnorm, hcheck⟩ := mem_vfsPath.mp hq
    exact (lawful_of_read hcheck _).mp (h q hnorm ⟨q, hq, hex⟩)
  · rintro h q hnorm ⟨q', hq, hex⟩
    obtain ⟨hnorm', hcheck⟩ := mem_vfsPath.mp hq
    obtain rfl : q = q' := Option.some.inj (hnorm.symm.trans hnorm')
    exact (lawful_of_read hcheck _).mpr (h q hq hex)

/-! ## Writing -/

theorem mem_vfsPath_of_isSome {α : Type} {p : Policy} {path q : CStr} {need : Rights} {f : CStr → Option α}
    (h : ((vfsPath p cwd path need).bind f).isSome = true) (hq : vfsNormalize cwd path fsNameMax = some q) :
    q ∈ vfsPath p cwd path need := by
  cases hpath : vfsPath p cwd path need with
  | none => simp [hpath] at h
  | some norm => exact (mem_vfsPath.mp hpath).1.symm.trans hq

theorem create_acts {p : Policy} {ns : Nodes} {path q : CStr} {type : FsType}
    (h : nodesAt ((vfsCreate p ns cwd path type).getD ns) q ≠ nodesAt ns q ∨
      ((vfsCreate p ns cwd path type).isSome = true ∧ vfsNormalize cwd path fsNameMax = some q)) :
    q ∈ vfsPath p cwd path capFsWrite := by
  rcases h with h | ⟨hok, hnorm⟩
  · exact (create_changes.mp h).1
  · exact mem_vfsPath_of_isSome hok hnorm

theorem remove_acts {p : Policy} {ns : Nodes} {path q : CStr}
    (h : nodesAt ((vfsRemove p ns cwd path).getD ns) q ≠ nodesAt ns q ∨
      ((vfsRemove p ns cwd path).isSome = true ∧ vfsNormalize cwd path fsNameMax = some q)) :
    q ∈ vfsPath p cwd path capFsWrite := by
  rcases h with h | ⟨hok, hnorm⟩
  · exact (remove_changes.mp h).1
  · exact mem_vfsPath_of_isSome hok hnorm

theorem write_acts {kmallocOk : Bool} {p : Policy} {ns : Nodes} {path q : CStr} {data : List UInt8}
    (h : nodesAt (vfsWrite kmallocOk p ns cwd path data).1 q ≠ nodesAt ns q ∨
      ((vfsWrite kmallocOk p ns cwd path data).2 = true ∧ vfsNormalize cwd path fsNameMax = some q)) :
    q ∈ vfsPath p cwd path capFsWrite := by
  rcases h with h | ⟨hok, hnorm⟩
  · exact (write_changes.mp h).1
  · cases hpath : vfsPath p cwd path capFsWrite with
    | none => simp [vfsWrite, hpath] at hok
    | some norm => exact (mem_vfsPath.mp hpath).1.symm.trans hnorm

theorem copy_acts {kmallocOk : Bool} {p : Policy} {ns : Nodes} {src dst q : CStr}
    (h : nodesAt (vfsCopy kmallocOk p ns cwd src dst).1 q ≠ nodesAt ns q ∨
      ((vfsCopy kmallocOk p ns cwd src dst).2 = true ∧ vfsNormalize cwd dst fsNameMax = some q)) :
    q ∈ vfsPath p cwd dst capFsWrite := by
  rcases h with h | ⟨hok, hnorm⟩
  · obtain ⟨nsrc, -, hdst, -⟩ := copy_changes.mp h
    exact hdst
  · cases hdst : vfsPath p cwd dst capFsWrite with
    | none =>
      unfold vfsCopy at hok
      rw [hdst] at hok
      simp at hok
    | some norm => exact (mem_vfsPath.mp hdst).1.symm.trans hnorm

theorem move_acts {kmallocOk : Bool} {p : Policy} {ns : Nodes} {src dst q : CStr}
    (h : nodesAt (vfsMove kmallocOk p ns cwd src dst).1 q ≠ nodesAt ns q ∨
      ((vfsMove kmallocOk p ns cwd src dst).2 = true ∧
        (vfsNormalize cwd src fsNameMax = some q ∨ vfsNormalize cwd dst fsNameMax = some q))) :
    q ∈ vfsPath p cwd dst capFsWrite ∨
      (q ∈ vfsPath p cwd src capFsRead ∧ ∃ ndst ∈ vfsPath p cwd dst capFsWrite,
        Copyable ns q ndst ∧ Fits kmallocOk ns q ∧ q ≠ root) := by
  rcases h with h | ⟨hok, hnorm⟩
  · obtain ⟨nsrc, hsrc, ndst, hdst, hc, rfl | ⟨rfl, hrest⟩⟩ := move_changes.mp h
    · exact Or.inl hdst
    · exact Or.inr ⟨hsrc, ndst, hdst, hc, hrest⟩
  · unfold vfsMove at hok
    cases hsrc : vfsPath p cwd src capFsRead with
    | none => simp [hsrc] at hok
    | some nsrc =>
      cases hdst : vfsPath p cwd dst capFsWrite with
      | none => simp [hsrc, hdst] at hok
      | some ndst =>
        simp only [hsrc, hdst] at hok
        rw [(mem_vfsPath.mp hsrc).1, (mem_vfsPath.mp hdst).1] at hnorm
        rcases hnorm with h | h
        · obtain rfl := Option.some.inj h
          exact Or.inr ⟨rfl, ndst, rfl, fsMove_ok (vfsPath_length hdst) hok⟩
        · exact Or.inl h

theorem write_enforced (op : VfsOp) :
    (Action.write op).Enforced m env cur k cwd ↔ (Action.write op).Distinguished m env cur k cwd := by
  cases op with
  | create path type => exact iff_of_true (fun q h => check_write (mem_vfsPath.mp (create_acts h)).2) trivial
  | mkdir path => exact iff_of_true (fun q h => check_write (mem_vfsPath.mp (create_acts h)).2) trivial
  | write path data => exact iff_of_true (fun q h => check_write (mem_vfsPath.mp (write_acts h)).2) trivial
  | remove path => exact iff_of_true (fun q h => check_write (mem_vfsPath.mp (remove_acts h)).2) trivial
  | copy src dst => exact iff_of_true (fun q h => check_write (mem_vfsPath.mp (copy_acts h)).2) trivial
  | move src dst =>
    constructor
    · intro h nsrc hsrc ndst hdst hc hf hroot
      refine (lawful_of_read (mem_vfsPath.mp hsrc).2 _).mp (h nsrc (Or.inl ?_))
      exact move_changes.mpr ⟨nsrc, hsrc, ndst, hdst, hc, Or.inr ⟨rfl, hf, hroot⟩⟩
    · intro h q hq
      rcases move_acts hq with hdst | ⟨hsrc, ndst, hdst, hc, hf, hroot⟩
      · exact check_write (mem_vfsPath.mp hdst).2
      · exact (lawful_of_read (mem_vfsPath.mp hsrc).2 _).mpr (h q hsrc ndst hdst hc hf hroot)

/-! ## Starting programs -/

theorem findFree_isSome : (findFree k).isSome = true ↔ ∃ p ∈ k.procs, ¬ Live p := by
  unfold findFree Live
  rw [List.findIdx?_isSome, List.any_eq_true]
  refine exists_congr fun p => and_congr_right fun _ => ?_
  cases p.present <;> simp

theorem execElfCore_isSome (pname : CStr) (load : Load) :
    (execElfCore cur pname load k).2.isSome = true ↔
      ∃ umap, load = .loaded umap ∧ (findFree k).isSome = true := by
  unfold execElfCore procCreateUserRegions
  cases load with
  | rejected => simp
  | aborted => cases findFree k <;> simp
  | loaded umap => cases findFree k <;> simp

theorem execElfCore_failed {pname : CStr} {load : Load} (hcur : Live (k.proc cur))
    (h : (execElfCore cur pname load k).2 = none) :
    policy cur (execElfCore cur pname load k).1 = policy cur k ∧
      (execElfCore cur pname load k).1.nodes = k.nodes ∧
      ((findFree (execElfCore cur pname load k).1).isSome = true ↔ (findFree k).isSome = true) := by
  have hrights := (Keeps.load (g := (·.rights)) cur pname load k cur hcur).2
  revert hrights h
  unfold execElfCore procCreateUserRegions
  cases load with
  | rejected => exact fun _ _ => ⟨rfl, rfl, Iff.rfl⟩
  | aborted =>
    cases hfree : findFree k with
    | none =>
      intro _ _
      exact ⟨rfl, rfl, by rw [hfree]⟩
    | some idx =>
      intro _ hrights
      refine ⟨?_, rfl, iff_of_true ?_ rfl⟩
      · unfold policy
        dsimp only at hrights ⊢
        rw [hrights]
      · have hlt : idx < k.procs.length := (List.findIdx?_eq_some_iff_getElem.mp hfree).1
        rw [findFree_isSome]
        refine ⟨_, List.mem_set hlt _, ?_⟩
        rintro ⟨hpresent, -⟩
        cases hpresent
  | loaded umap =>
    cases hfree : findFree k with
    | none =>
      intro _ _
      exact ⟨rfl, rfl, by rw [hfree]⟩
    | some idx =>
      intro h
      cases h

theorem execSysdir_isSome (path : CStr) :
    (execSysdir m env cur path k).2.isSome = true ↔ EmbeddedRuns m env k path := by
  unfold execSysdir EmbeddedRuns
  cases hname : embeddedName path with
  | none => simp
  | some name =>
    dsimp only
    unfold execEmbeddedArgs
    by_cases hempty : name = []
    · rw [if_pos hempty]
      simp [hempty]
    rw [if_neg hempty]
    split
    case isTrue hmod =>
      simp only [List.any_eq_true, decide_eq_true_eq] at hmod
      rw [execElfCore_isSome]
      constructor
      · rintro ⟨umap, hload, hfree⟩
        exact ⟨name, umap, rfl, hempty, hmod, hload, hfree⟩
      · rintro ⟨_, umap, ⟨⟩, -, -, hload, hfree⟩
        exact ⟨umap, hload, hfree⟩
    case isFalse hmod =>
      simp only [List.any_eq_true, decide_eq_true_eq] at hmod
      refine iff_of_false (by simp) ?_
      rintro ⟨_, _, ⟨⟩, -, h, -⟩
      exact hmod h

theorem execSysdir_failed {path : CStr} (hcur : Live (k.proc cur))
    (h : (execSysdir m env cur path k).2 = none) :
    policy cur (execSysdir m env cur path k).1 = policy cur k ∧
      (execSysdir m env cur path k).1.nodes = k.nodes ∧
      ((findFree (execSysdir m env cur path k).1).isSome = true ↔ (findFree k).isSome = true) := by
  revert h
  unfold execSysdir
  cases embeddedName path with
  | none => exact fun _ => ⟨rfl, rfl, Iff.rfl⟩
  | some name =>
    dsimp only
    rcases execEmbeddedArgs_cases m cur name env.loadEmbedded k with he | he
    · rw [he]
      exact fun _ => ⟨rfl, rfl, Iff.rfl⟩
    · rw [he]
      exact execElfCore_failed hcur

theorem execFile_isSome {path : CStr} (hpath : path ≠ []) :
    (execFile env cur path k).2.isSome = true ↔
      FileRuns env k path ∧ vfsCheckCap (policy cur k) path capFsRead = true := by
  unfold execFile execElfArgs FileRuns
  have hexists : ∀ n, fsGet k.nodes path = some n → fsExists k.nodes path = true := by
    intro n hn
    simp [fsExists, hn]
  cases hget : fsGet k.nodes path with
  | none =>
    simp only [fsRead, hget]
    split_ifs <;> simp
  | some n =>
    simp only [hexists n hget, Bool.not_true, Bool.false_eq_true, if_false]
    by_cases hcheck : vfsCheckCap (policy cur k) path capFsRead = true
    · simp only [hcheck, Bool.not_true, Bool.false_eq_true, if_false, and_true]
      by_cases hk : env.kmallocOk = true
      · by_cases hdir : n.type = .dir
        · simp [fsRead, hget, hdir, hpath, hk]
        · have hlen : (n.data.take (1024 * 1024)).length < 64 ↔ ¬ 64 ≤ n.data.length := by
            rw [List.length_take]
            omega
          simp only [hpath, hk, fsRead, hget, hdir, decide_false, Bool.not_true, Bool.or_false,
            Bool.false_eq_true, if_false, hlen]
          by_cases hsize : 64 ≤ n.data.length
          · simp [hsize, execElfCore_isSome, hdir]
          · simp [hsize]
      · simp [hk]
    · simp [hcheck]

theorem execUserPath_isSome (hcur : Live (k.proc cur)) (path : CStr) :
    (execUserPath m env cur path k).2.isSome = true ↔ path ≠ [] ∧ (EmbeddedRuns m env k path ∨
      (FileRuns env k path ∧ vfsCheckCap (policy cur k) path capFsRead = true)) := by
  unfold execUserPath
  by_cases hpath : path = []
  · simp [hpath]
  rw [if_neg hpath]
  dsimp only
  by_cases hfirst : (execSysdir m env cur path k).2.isSome = true
  · rw [if_pos hfirst]
    exact iff_of_true hfirst ⟨hpath, Or.inl (execSysdir_isSome path |>.mp hfirst)⟩
  · have hnone : (execSysdir m env cur path k).2 = none := by simpa using hfirst
    obtain ⟨hpolicy, hnodes, hfree⟩ := execSysdir_failed hcur hnone
    rw [if_neg hfirst, execFile_isSome hpath, hpolicy]
    rw [execSysdir_isSome] at hfirst
    simp [FileRuns, hnodes, hfree, hfirst, hpath]

theorem exec_enforced (hcur : Live (k.proc cur)) (path : CStr) :
    (Action.exec path).Enforced m env cur k cwd ↔ (Action.exec path).Distinguished m env cur k cwd := by
  unfold Action.Enforced Action.Distinguished
  dsimp only
  rw [execUserPath_isSome hcur]
  constructor
  · intro h hpath
    refine ⟨fun he => h ⟨hpath, Or.inl he⟩, fun hf hcheck => ?_⟩
    exact (lawful_of_read hcheck _).mp (h ⟨hpath, Or.inr ⟨hf, hcheck⟩⟩)
  · rintro h ⟨hpath, he | ⟨hf, hcheck⟩⟩
    · exact (h hpath).1 he
    · exact (lawful_of_read hcheck _).mpr ((h hpath).2 hf hcheck)

/-! ## Every action -/

theorem contracts_enforced_iff (m : Machine) (env : Env) (cur : Nat) (k : Kernel) (cwd : CStr)
    (hcur : Live (k.proc cur)) (a : Action) : a.Enforced m env cur k cwd ↔ a.Distinguished m env cur k cwd := by
  cases a with
  | read path max => exact read_enforced path max
  | list path max => exact list_enforced path max
  | openPath path => exact open_enforced path
  | write op => exact write_enforced op
  | exec path => exact exec_enforced hcur path

/-- A consented contract, for reading, and one on `/bin` that grants nothing and that nobody accepted. -/
def twoContracts : Synallagma :=
  consentGrant ⟨[⟨[], ascii "/idios", true, false, false, true, true, true, 0⟩,
    ⟨[], ascii "/bin", false, false, false, true, true, true, 0⟩],
    List.replicate maxContracts false⟩ 0

theorem contracts_enforced_list :
    (Action.list (ascii "/idios") 64).Enforced smallMachine (callEnv [] 0) 0 (boot [] twoContracts).kernel root := by
  refine (contracts_enforced_iff smallMachine (callEnv [] 0) 0 (boot [] twoContracts).kernel root
    ⟨rfl, by decide⟩ (.list (ascii "/idios") 64)).mpr ?_
  intro q hq c hc
  have hnorm : vfsNormalize root (ascii "/idios") fsNameMax = some (ascii "/idios") := by decide +kernel
  obtain rfl : q = ascii "/idios" := Option.some.inj ((mem_vfsPath.mp hq).1.symm.trans hnorm)
  have hleitura : (synallagmaContractFor twoContracts (ascii "/idios")).all (·.leitura) = true := by
    decide +kernel
  rw [show synallagmaContractFor twoContracts (ascii "/idios") = some c from hc] at hleitura
  exact hleitura

/-- A module starts under a contract that does not grant execution. -/
theorem contracts_unenforced :
    ¬ (Action.exec (ascii "/bin/spoudazo")).Enforced smallMachine (callEnv [] 0) 0
      (boot [] twoContracts).kernel root := by
  intro h
  have hlawful := lawful_iff.mp (h (by decide +kernel))
  have hguarded : (synallagmaContractFor twoContracts (ascii "/bin/spoudazo")).any (!·.execucao) = true := by
    decide +kernel
  obtain ⟨c, hc⟩ := Option.isSome_iff_exists.mp
    (show (synallagmaContractFor twoContracts (ascii "/bin/spoudazo")).isSome = true by decide +kernel)
  have hx := (hlawful c hc).2
  rw [hc] at hguarded
  simp [hx] at hguarded

end Siathos.Session
