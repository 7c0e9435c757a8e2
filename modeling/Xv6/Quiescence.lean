import Xv6.Sessions

/-! The kernel between two system calls. After every session, whatever its calls did and
whether they failed, no lock is held, the cached inodes are those of the disk, reference
counts are exact and every inode without a link is still held by someone. -/
namespace Xv6.Quiescence
open TraceMonad RedoLog Layout Codec Bio Cache LogSpec Fs Disk DevSpec InodeSpec ContentSpec
open Directory DirSpec Moves OpSpec Syscall FileSpec CallSpec Mkfs ImageSpec ImageFiles RunSpec Sessions

/-- The cached inodes in use are distinct inodes of the disk that are allocated, and the
copies in memory are those of the disk. -/
structure InodeCache (sb : Superblock) (s : State) : Prop where
  range : ∀ ip, 0 < (s.icache ip).ref →
    ip < ninode ∧ 0 < (s.icache ip).inum ∧ (s.icache ip).inum < sb.ninodes
  unique : ∀ ip jp, 0 < (s.icache ip).ref → 0 < (s.icache jp).ref →
    (s.icache ip).inum = (s.icache jp).inum → ip = jp
  copy : ∀ ip, 0 < (s.icache ip).ref → (s.icache ip).valid = true →
    (s.icache ip).din = dinodeAt (content s.dev) (s.icache ip).inum
  typed : ∀ ip, 0 < (s.icache ip).ref → (dinodeAt (content s.dev) (s.icache ip).inum).type ≠ 0

/-- No inode is locked, no buffer is busy and no transaction is open. -/
structure Unlocked (s : State) : Prop where
  inodes : ∀ ip, (s.icache ip).busy = false
  buffers : held s.dev = ∅
  log : s.dev.log.busy = false ∧ s.dev.log.lh = []

/-- Every reference to a cached inode belongs to a working directory or an open file. -/
structure References (k : Kernel) : Prop where
  counts : ∀ ip, (k.fs.icache ip).ref = cwdRefs k.proc ip + fileRefs k.ftable ip
  cwds : ∀ p, (k.proc p).state = .runnable ↔ ∃ ip, (k.proc p).cwd = some ip
  files : ∀ f, (k.ftable f).type = .inode → f < nfile ∧ 0 < (k.ftable f).ref

/-- Inodes without a link are in the cache, so that the last iput frees them; directories
are arrays of entries for inodes of the disk. -/
structure Accounted (sb : Superblock) (s : State) : Prop where
  orphans : ∀ i < sb.ninodes, (dinodeAt (content s.dev) i).type ≠ 0 →
    (dinodeAt (content s.dev) i).nlink = 0 →
      ∃ ip, 0 < (s.icache ip).ref ∧ (s.icache ip).inum = i ∧ (s.icache ip).valid = true
  directories : ∀ i < sb.ninodes, (dinodeAt (content s.dev) i).type = tDir →
    (dinodeAt (content s.dev) i).size % 16 = 0 ∧
      ∀ j, 16 * j < (dinodeAt (content s.dev) i).size →
        (slot (inodesOf s.dev i) j).inum < sb.ninodes

section Between
variable {t : Setting} {a : Snap} {k : Kernel}

theorem kinv_cached (inv : KInv t a k) : Cached t.sb (dinodeAt (content k.fs.dev)) a k.fs.icache := by
  obtain ⟨h, eff, world⟩ := inv.ready.rep
  have same : ∀ i < t.sb.ninodes, dinodeAt (content k.fs.dev) i = eff i := by
    intro i inside
    have low := iblock_low t.sb inside
    have start := dataStart_eq t.sb
    have area := t.geometry.area
    rw [← world.synced i inside (inv.ready.clean ▸ Finset.notMem_empty i), dinodeAt, dinodeAt,
      world.dev.blk _ (by omega)]
  have cached := world.cached
  exact { cached with
    copy := fun ip held valid => by
      rw [same _ (cached.slot ip held).2.2.2]
      exact cached.copy ip held valid }

theorem kinv_inodeCache (inv : KInv t a k) : InodeCache t.sb k.fs := by
  have cached := kinv_cached inv
  have live := inv.ready.calm.live
  rw [← inv.ready.refs] at live
  have held : ∀ ip, 0 < (k.fs.icache ip).ref → 0 < a.refs ip := fun ip some => cached.refs ip ▸ some
  have inum : ∀ ip, 0 < (k.fs.icache ip).ref → (k.fs.icache ip).inum = a.inums ip :=
    fun ip some => (cached.slot ip (held ip some)).2.1
  refine ⟨fun ip some => ?_, fun ip jp left right same => ?_, fun ip some valid => ?_,
    fun ip some => ?_⟩
  · obtain ⟨below, _, range⟩ := cached.slot ip (held ip some)
    rw [inum ip some]
    exact ⟨below, range⟩
  · rw [inum ip left, inum jp right] at same
    exact cached.unique ip jp (held ip left) (held jp right) same
  · rw [inum ip some]
    exact cached.copy ip (held ip some) valid
  · have shown := (rep_blocks inv.ready.rep inv.ready.clean).2 (a.inums ip)
      (cached.slot ip (held ip some)).2.2.2
    rw [inum ip some]
    exact fun free => live ip (held ip some) ((congrArg Node.type shown).symm.trans free)

theorem kinv_unlocked (inv : KInv t a k) : Unlocked k.fs := by
  obtain ⟨h, eff, world⟩ := inv.ready.rep
  refine ⟨fun ip => ?_, world.dev.held, world.dev.busy.trans inv.outside, world.dev.idle inv.outside⟩
  rw [world.cached.busy ip, inv.ready.locked]
  rfl

theorem kinv_references (inv : KInv t a k) : References k := by
  obtain ⟨h, eff, world⟩ := inv.ready.rep
  refine ⟨fun ip => ?_, fun p => ⟨fun running => (inv.procs.running p running).2, ?_⟩, fun f inode => ?_⟩
  · rw [world.cached.refs ip, inv.ready.refs]
    rfl
  · rintro ⟨ip, cwd⟩
    by_contra idle
    rw [inv.procs.others p idle] at cwd
    exact absurd cwd (by simp)
  · exact ⟨(inv.files f inode).inside, (inv.files f inode).used⟩

theorem kinv_accounted (inv : KInv t a k) : Accounted t.sb k.fs := by
  have calm := (kinv_shown inv).ready.calm
  have cached := kinv_cached inv
  refine ⟨fun i inside typed unlinked => ?_, fun i inside dir => ?_⟩
  · obtain ⟨ip, held, inum, loaded⟩ := calm.anchored i inside typed unlinked
    rw [← inv.ready.refs] at held
    refine ⟨ip, (cached.refs ip).symm ▸ held, ?_, (cached.loaded ip held).mpr loaded⟩
    rw [(cached.slot ip held).2.1]
    exact inum
  · have shape := calm.shape i inside dir
    have aligned : (dinodeAt (content k.fs.dev) i).size % 16 = 0 := shape.aligned
    refine ⟨aligned, fun j below => shape.inums j ?_⟩
    change j < (dinodeAt (content k.fs.dev) i).size / 16
    omega

end Between

section Sessions
variable {sb : Superblock} {disk : Nat → Block} {nodes : Nat → Node} {calls : List (Nat × Call)}
  {k : Kernel}

section Done
variable (consistent : Consistent sb disk nodes) (roomy : Roomy (session calls (powerOn disk)).2)
  (done : (session calls (powerOn disk)).1 = .done () k)
include consistent roomy done

theorem session_kinv : ∃ a, KInv (setting sb consistent.geometry lenient anything) a k :=
  (session_outcome lenient (Or.inl rfl) rfl consistent (served_of_roomy roomy)
    (fun closed => by cases closed)).2.1 k done

/-- The inode cache is coherent after every session. -/
theorem inode_cache_coherent : InodeCache sb k.fs := by
  obtain ⟨a, inv⟩ := session_kinv consistent roomy done
  exact kinv_inodeCache inv

/-- No call leaves a lock behind, on any of its paths. -/
theorem locks_released : Unlocked k.fs := by
  obtain ⟨a, inv⟩ := session_kinv consistent roomy done
  exact kinv_unlocked inv

/-- Reference counts of cached inodes are exact after every session. -/
theorem references_exact : References k := by
  obtain ⟨a, inv⟩ := session_kinv consistent roomy done
  exact kinv_references inv

/-- No inode is lost: what has no link is held, and directories stay well formed. -/
theorem inodes_kept : Accounted sb k.fs := by
  obtain ⟨a, inv⟩ := session_kinv consistent roomy done
  exact kinv_accounted inv

end Done

/-- A file is made and opened, its name is removed and the descriptor is still open. -/
def orphaning : Outcome Kernel Halt Unit × List Event :=
  session [(0, .open pathD 0x202), (0, .unlink pathD)] (powerOn roomyImage.sect)

theorem orphaning_done : ∃ nodes k,
    Consistent (superblock roomyParams) roomyImage.sect nodes ∧
      Roomy orphaning.2 ∧
      orphaning.1 = .done () k ∧
      (dinodeAt (content k.fs.dev) 2).type ≠ 0 ∧ (dinodeAt (content k.fs.dev) 2).nlink = 0 := by
  have fine : orphaning.1.passes (fun k =>
      decide ((dinodeAt (content k.fs.dev) 2).type ≠ 0 ∧
        (dinodeAt (content k.fs.dev) 2).nlink = 0)) = true := by decide +kernel
  obtain ⟨_, k, done, state⟩ := Outcome.passes_iff.mp fine
  obtain ⟨nodes, _, consistent⟩ := main_consistent roomyImage_built roomyImage_fits
  exact ⟨_, k, consistent, by decide +kernel, done, of_decide_eq_true state⟩

theorem orphan_cached : ∃ k, orphaning.1 = .done () k ∧
    InodeCache (superblock roomyParams) k.fs := by
  obtain ⟨_, k, consistent, roomy, done, _⟩ := orphaning_done
  exact ⟨k, done, inode_cache_coherent consistent roomy done⟩

theorem orphan_unlocked : ∃ k, orphaning.1 = .done () k ∧
    Unlocked k.fs := by
  obtain ⟨_, k, consistent, roomy, done, _⟩ := orphaning_done
  exact ⟨k, done, locks_released consistent roomy done⟩

theorem orphan_references : ∃ k, orphaning.1 = .done () k ∧
    References k := by
  obtain ⟨_, k, consistent, roomy, done, _⟩ := orphaning_done
  exact ⟨k, done, references_exact consistent roomy done⟩

/-- The open file without a name is still in the cache. -/
theorem orphan_kept : ∃ k, orphaning.1 = .done () k ∧
    ∃ ip, 0 < (k.fs.icache ip).ref ∧ (k.fs.icache ip).inum = 2 ∧ (k.fs.icache ip).valid = true := by
  obtain ⟨_, k, consistent, roomy, done, typed, unlinked⟩ := orphaning_done
  exact ⟨k, done, (inodes_kept consistent roomy done).orphans 2 (by decide) typed unlinked⟩

end Sessions

end Xv6.Quiescence
