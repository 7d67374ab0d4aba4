import Siathos.Fsd.Copy

/-!
# Histories of requests, with the service and without

As long as each request is one that both can do, or neither can, the store and the file system stay the same
and so do the answers.
-/

open Lib Siathos.Nomos Siathos.Fs Siathos.Syscall Siathos.Session

namespace Siathos.Fsd

namespace Twins

def Allowed (t : Twins) (a : Asked) : Prop := InScope t a.request.path a.request.data

def Meets (t : Twins) (a : Asked) : Prop := Alike a.env t.alone a.client a.request

instance (t : Twins) (a : Asked) : Decidable (Allowed t a) :=
  inferInstanceAs (Decidable (InScope t a.request.path a.request.data))

instance (t : Twins) (a : Asked) : Decidable (Meets t a) :=
  inferInstanceAs (Decidable (Alike a.env t.alone a.client a.request))

abbrev Step (cur : Nat) := Exec Allowed (apply cur)

end Twins

variable {cur : Nat} {k : Kernel} {t : Twins} {a : Asked}

theorem meets_together (hm : Mirror t.service.store t.alone.nodes) (hs : t.Allowed a) (ha : t.Meets a) :
    Together cur t a := by
  obtain ⟨env, client, request⟩ := a
  cases request with
  | create path => exact create_together cur hm hs ha
  | write path data => exact write_together cur hm hs ha
  | read path => exact read_together cur hm hs ha
  | list path => exact list_together cur hm hs ha
  | mkdir path => exact mkdir_together cur hm hs ha
  | remove path => exact remove_together cur hm hs ha

theorem mirror_run (env : Env) (hseed : Seedable k cur) {ops : List Asked}
    (h : Run (Guarded Twins.Meets (Twins.Step cur)) (Twins.seed env k cur) ops t) :
    Mirror t.service.store t.alone.nodes := by
  have hstep : ∀ (t : Twins) (a : Asked) (t' : Twins), Mirror t.service.store t.alone.nodes →
      Guarded Twins.Meets (Twins.Step cur) t a t' → Mirror t'.service.store t'.alone.nodes := by
    rintro t a t' hm ⟨ha, hs, rfl⟩
    exact (meets_together hm hs ha).1
  exact Run.invariant hstep h (seed_mirrors env hseed)

/-- Every request of such a history is answered by the service as by the kernel. -/
theorem service_agrees (env : Env) (hseed : Seedable k cur) {ops : List Asked}
    (h : Run (Guarded Twins.Meets (Twins.Step cur)) (Twins.seed env k cur) ops t) (hs : t.Allowed a)
    (ha : t.Meets a) : Agrees cur t a :=
  (meets_together (mirror_run env hseed h) hs ha).2

/-! ## A small file system -/

/-- The two folders with one file each, a folder, and room for more. -/
def twoFolders : Nodes :=
  [⟨nomos, [], 0, .dir, true⟩, ⟨ascii "/nomos/manifesto.txt", ascii "praxis\n", 256, .file, true⟩,
    ⟨paradosis, [], 0, .dir, true⟩, ⟨ascii "/paradosis/exemplo.txt", ascii "exemplo\n", 256, .file, true⟩,
    ⟨ascii "/paradosis/d", [], 0, .dir, true⟩] ++ List.replicate 3 ⟨[], [], 0, .file, false⟩

/-- 'fsd' and 'spoudazo' run. -/
def twoFoldersKernel : Kernel :=
  (served.foldl (World.apply fsdMachine) (World.boot twoFolders synallagmaInit)).sys.kernel

def exemplo : CStr := ascii "/paradosis/exemplo.txt"

/-- A client makes a file and writes two. -/
def writing : List Asked :=
  [⟨callEnv [] 0, 2, .create (ascii "/paradosis/d/a")⟩,
  ⟨callEnv [] 0, 2, .write (ascii "/paradosis/d/a") (ascii "ola\n")⟩,
    ⟨callEnv [] 0, 2, .write exemplo (ascii "outro\n")⟩, ⟨callEnv [] 0, 2, .mkdir exemplo⟩]

def written : Twins := writing.foldl (Twins.apply 1) (Twins.seed (callEnv [] 0) twoFoldersKernel 1)

theorem twoFolders_seedable : Seedable twoFoldersKernel 1 where
  single := single_iff.mpr (by decide +kernel)
  reads := by decide +kernel
  listed := by decide +kernel
  names := by decide +kernel
  files := by decide +kernel
  flat := by decide +kernel
  few := by decide +kernel

theorem service_agrees_written :
    Agrees 1 written ⟨callEnv [] 0, 2, .read exemplo⟩ ∧
      Agrees 1 written ⟨callEnv [] 0, 2, .list (ascii "/paradosis/d")⟩ := by
  have hrun : Run (Guarded Twins.Meets (Twins.Step 1)) (Twins.seed (callEnv [] 0) twoFoldersKernel 1) writing written :=
    Run.of_admits_guarded (by decide +kernel)
  exact ⟨service_agrees (callEnv [] 0) twoFolders_seedable hrun (by decide +kernel) (by decide +kernel),
    service_agrees (callEnv [] 0) twoFolders_seedable hrun (by decide +kernel) (by decide +kernel)⟩

/-- The eight folders of the store take all of its entries for folders. -/
theorem service_makes_no_folder :
    ¬ ∀ (env : Env) (k : Kernel) (cur : Nat) (ops : List Asked) (t : Twins) (a : Asked), Seedable k cur →
      Run (Twins.Step cur) (Twins.seed env k cur) ops t → t.Allowed a → Agrees cur t a := by
  intro h
  have hagree := h (callEnv [] 0) twoFoldersKernel 1 [] (Twins.seed (callEnv [] 0) twoFoldersKernel 1)
    ⟨callEnv [] 0, 2, .mkdir (ascii "/paradosis/e")⟩ twoFolders_seedable (Run.nil _) (by decide +kernel)
  have hservice : ((Twins.seed (callEnv [] 0) twoFoldersKernel 1).answer 1
      ⟨callEnv [] 0, 2, .mkdir (ascii "/paradosis/e")⟩).2.2.outcome = none := by decide +kernel
  have hkernel : ((Twins.seed (callEnv [] 0) twoFoldersKernel 1).call
      ⟨callEnv [] 0, 2, .mkdir (ascii "/paradosis/e")⟩).2 = some [] := by decide +kernel
  unfold Agrees at hagree
  rw [hservice, hkernel] at hagree
  exact hagree

end Siathos.Fsd
