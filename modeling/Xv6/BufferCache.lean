import Xv6.Bio
import Xv6.LinkedRing
import Xv6.Transition

/-! kernel/bio.c, log_write and commit_trans of kernel/log.c, and iderw of
kernel/memide.c, run by any number of processes. A step is one section under
bcache.lock, with the private code of the process before or after it; a buffer that
a process holds is its own. A call that panics has no step. -/
namespace Xv6.BufferCache
open Transition LinkedRing Layout RedoLog

inductive Node
  | head
  | buf (b : Fin nbuf)
  deriving DecidableEq

/-- The uint that binit's -1 becomes. -/
def noDev : Nat := 2 ^ 32 - 1

def logDev : Nat := 1

structure Buf (δ : Type) where
  dev : Nat
  sector : Nat
  busy : Bool
  valid : Bool
  dirty : Bool
  data : δ

/-- bcache and the memory disk. `left` is history: what was in the buffer of a sector
when it was last released, or the initial disk. -/
structure Cache (δ : Type) where
  links : Links Node
  buf : Fin nbuf → Buf δ
  disk : Nat → δ
  disksize : Nat
  left : Nat → δ

section Bio
variable {δ : Type}

def Cache.setBuf (cache : Cache δ) (b : Fin nbuf) (x : Buf δ) : Cache δ :=
  { cache with buf := fun c => if c = b then x else cache.buf c }

def binitLinks : Links Node :=
  (List.finRange nbuf).foldl (fun links b => pushFront links .head (.buf b))
    ⟨fun _ => .head, fun _ => .head⟩

def binit (blank : δ) (disk : Nat → δ) (disksize : Nat) : Cache δ where
  links := binitLinks
  buf _ := ⟨noDev, 0, false, false, false, blank⟩
  disk := disk
  disksize := disksize
  left := disk

def caches (cache : Cache δ) (dev sector : Nat) : Node → Bool
  | .head => false
  | .buf b => (cache.buf b).dev == dev && (cache.buf b).sector == sector

def reusable (cache : Cache δ) : Node → Bool
  | .head => false
  | .buf b => !(cache.buf b).busy && !(cache.buf b).dirty

inductive Got (δ : Type)
  | sleep (b : Fin nbuf)
  | taken (cache : Cache δ) (b : Fin nbuf)
  | noBuffers

/-- One pass of bget from `loop:` to the return, the sleep or the panic. -/
def bget (cache : Cache δ) (dev sector : Nat) : Got δ :=
  match seek cache.links.next .head (caches cache dev sector) (nbuf + 1)
      (cache.links.next .head) with
  | some (.buf b) =>
    if (cache.buf b).busy then .sleep b
    else .taken (cache.setBuf b { cache.buf b with busy := true }) b
  | _ =>
    match seek cache.links.prev .head (reusable cache) (nbuf + 1) (cache.links.prev .head) with
    | some (.buf b) =>
      .taken (cache.setBuf b ⟨dev, sector, true, false, false, (cache.buf b).data⟩) b
    | _ => .noBuffers

def iderw (cache : Cache δ) (b : Fin nbuf) : Option (Cache δ) :=
  let x := cache.buf b
  if !x.busy then none
  else if x.valid && !x.dirty then none
  else if x.dev ≠ 1 then none
  else if cache.disksize ≤ x.sector then none
  else if x.dirty then
    some { cache.setBuf b { x with dirty := false, valid := true } with
      disk := store cache.disk x.sector x.data }
  else some (cache.setBuf b { x with data := cache.disk x.sector, valid := true })

/-- The rest of bread after bget. -/
def breadData (cache : Cache δ) (b : Fin nbuf) : Option (Cache δ) :=
  if (cache.buf b).valid then some cache else iderw cache b

def modify (cache : Cache δ) (b : Fin nbuf) (data : δ) : Cache δ :=
  cache.setBuf b { cache.buf b with data := data }

def markDirty (cache : Cache δ) (b : Fin nbuf) : Cache δ :=
  cache.setBuf b { cache.buf b with dirty := true }

def bwrite (cache : Cache δ) (b : Fin nbuf) : Option (Cache δ) :=
  if (cache.buf b).busy then iderw (markDirty cache b) b else none

/-- brelse without the wakeup. -/
def brelse (cache : Cache δ) (b : Fin nbuf) : Option (Cache δ) :=
  let x := cache.buf b
  if x.busy then
    some { cache.setBuf b { x with busy := false } with
      links := pushFront (unlink cache.links (.buf b)) .head (.buf b)
      left := if x.dev = 1 then store cache.left x.sector x.data else cache.left }
  else none

end Bio

/-- What a process does with the buffer that bread returns. -/
inductive Cont
  | client
  /-- log_write of `c` at index `i` -/
  | log (c : Fin nbuf) (i : Nat)
  /-- write_head; the second one of commit_trans is `final` -/
  | head (final : Bool)
  /-- install_trans, the log block -/
  | slot (tail : Nat)
  /-- install_trans, the home block, with the log block `l` held -/
  | home (tail : Nat) (l : Fin nbuf)
  deriving DecidableEq

inductive Phase
  | idle
  /-- in bget, asleep on the buffer `chan` if there is one -/
  | bget (k : Cont) (dev sector : Nat) (chan : Option (Fin nbuf))
  /-- bget has returned `b` -/
  | bread (k : Cont) (dev sector : Nat) (b : Fin nbuf)
  | logPut (c : Fin nbuf) (i : Nat) (l : Fin nbuf)
  | headPut (final : Bool) (h : Fin nbuf)
  | slotPut (tail : Nat) (l d : Fin nbuf)
  | homePut (tail : Nat) (d : Fin nbuf)
  deriving DecidableEq

/-- `held` are the buffers that the file system code got from bread. -/
structure Thread where
  phase : Phase
  held : List (Fin nbuf)

structure Log where
  start : Nat
  size : Nat
  busy : Bool
  n : Nat
  sector : Nat → Nat

def Log.entries (log : Log) : List Nat := (List.range log.n).map log.sector

/-- The first index whose entry is the sector, or n. -/
def Log.index (log : Log) (sector : Nat) : Nat := log.entries.idxOf sector

structure State where
  cache : Cache Block
  log : Log
  thread : Nat → Thread

def State.put (s : State) (p : Nat) (cache : Cache Block) (t : Thread) : State :=
  { s with cache := cache, thread := fun q => if q = p then t else s.thread q }

def State.setLog (s : State) (log : Log) : State := { s with log := log }

def wake (b : Fin nbuf) (t : Thread) : Thread :=
  match t.phase with
  | .bget k dev sector (some chan) =>
    if chan = b then { t with phase := .bget k dev sector none } else t
  | _ => t

/-- brelse with wakeup(b), as the process `p` that goes on as `t`. -/
def State.release (s : State) (p : Nat) (b : Fin nbuf) (t : Thread) : Option State :=
  (brelse s.cache b).map fun cache =>
    { s with cache := cache, thread := fun q => if q = p then t else wake b (s.thread q) }

/-- The test of install_trans's loop; after the loop n = 0 and the second write_head. -/
def State.install (s : State) (p tail : Nat) : State :=
  let t := s.thread p
  if tail < s.log.n then
    s.put p s.cache { t with phase := .bget (.slot tail) logDev (s.log.start + tail + 1) none }
  else
    (s.setLog { s.log with n := 0 }).put p s.cache
      { t with phase := .bget (.head true) logDev s.log.start none }

/-- bread has returned `b` to `p`. -/
def proceed (log : Log) (t : Thread) (b : Fin nbuf) : Cont → Thread
  | .client => ⟨.idle, b :: t.held⟩
  | .log c i => { t with phase := .logPut c i b }
  | .head final => { t with phase := .headPut final b }
  | .slot tail => { t with phase := .bget (.home tail b) logDev (log.sector tail) none }
  | .home tail l => { t with phase := .slotPut tail l b }

inductive Act
  | bread (p dev sector : Nat)
  /-- the holder changes the data and calls bwrite -/
  | bwrite (p : Nat) (b : Fin nbuf) (data : Block)
  | logWrite (p : Nat) (b : Fin nbuf) (data : Block)
  | brelse (p : Nat) (b : Fin nbuf)
  | beginTrans (p : Nat)
  | commitTrans (p : Nat)
  /-- the next section of the call that `p` is in -/
  | run (p : Nat)
  /-- kill makes a sleeping process runnable -/
  | kill (p : Nat)

/-- The next section of a process inside a call. -/
def run (s : State) (p : Nat) : Option State :=
  let t := s.thread p
  match t.phase with
  | .idle => none
  | .bget _ _ _ (some _) => none
  | .bget k dev sector none =>
    match bget s.cache dev sector with
    | .sleep b => some (s.put p s.cache { t with phase := .bget k dev sector (some b) })
    | .taken cache b => some (s.put p cache { t with phase := .bread k dev sector b })
    | .noBuffers => none
  | .bread k _ _ b =>
    (breadData s.cache b).map fun cache => s.put p cache (proceed s.log t b k)
  | .logPut c i l => do
    let cache ← bwrite (modify s.cache l (s.cache.buf c).data) l
    let s ← { s with cache := cache }.release p l { t with phase := .idle }
    let n := if i = s.log.n then s.log.n + 1 else s.log.n
    return { s with cache := markDirty s.cache c, log := { s.log with n := n } }
  | .headPut final h => do
    let header := Bio.putHeader (s.cache.buf h).data s.log.entries
    let cache ← bwrite (modify s.cache h header) h
    let s ← { s with cache := cache }.release p h { t with phase := .idle }
    if final then return s.setLog { s.log with busy := false } else return s.install p 0
  | .slotPut tail l d => do
    let cache ← bwrite (modify s.cache d (s.cache.buf l).data) d
    { s with cache := cache }.release p l { t with phase := .homePut tail d }
  | .homePut tail d => do
    let s ← s.release p d { t with phase := .idle }
    return s.install p (tail + 1)

def isIdle : Phase → Bool
  | .idle => true
  | _ => false

def step (s : State) : Act → Option State
  | .bread p dev sector =>
    let t := s.thread p
    if isIdle t.phase then
      some (s.put p s.cache { t with phase := .bget .client dev sector none }) else none
  | .bwrite p b data =>
    let t := s.thread p
    if isIdle t.phase ∧ b ∈ t.held then
      (bwrite (modify s.cache b data) b).map fun cache => { s with cache := cache }
    else none
  | .logWrite p b data =>
    let t := s.thread p
    let x := s.cache.buf b
    if isIdle t.phase ∧ b ∈ t.held then
      if s.log.n ≥ logsize ∨ s.log.n + 1 ≥ s.log.size then none
      else if !s.log.busy then none
      else
        let i := s.log.index x.sector
        let log := { s.log with sector := fun j => if j = i then x.sector else s.log.sector j }
        some ((s.setLog log).put p (modify s.cache b data)
          { t with phase := .bget (.log b i) x.dev (s.log.start + i + 1) none })
    else none
  | .brelse p b =>
    let t := s.thread p
    if isIdle t.phase ∧ b ∈ t.held then s.release p b ⟨.idle, t.held.erase b⟩ else none
  | .beginTrans p =>
    if isIdle (s.thread p).phase ∧ s.log.busy = false then
      some (s.setLog { s.log with busy := true }) else none
  | .commitTrans p =>
    let t := s.thread p
    if isIdle t.phase then
      if 0 < s.log.n then
        some (s.put p s.cache { t with phase := .bget (.head false) logDev s.log.start none })
      else some (s.setLog { s.log with busy := false })
    else none
  | .run p => run s p
  | .kill p =>
    let t := s.thread p
    match t.phase with
    | .bget k dev sector (some _) =>
      some (s.put p s.cache { t with phase := .bget k dev sector none })
    | _ => none

def start (disk : Nat → Block) (disksize : Nat) (log : Log) : State :=
  ⟨binit 0 disk disksize, log, fun _ => ⟨.idle, []⟩⟩

/-! Who holds a buffer, and what is pending. -/

def Cont.bufs : Cont → List (Fin nbuf)
  | .home _ l => [l]
  | _ => []

def Phase.bufs : Phase → List (Fin nbuf)
  | .idle => []
  | .bget k _ _ _ => k.bufs
  | .bread k _ _ b => b :: k.bufs
  | .logPut _ _ l => [l]
  | .headPut _ h => [h]
  | .slotPut _ l d => [l, d]
  | .homePut _ d => [d]

/-- The buffers that bread has returned to the process and that it has not released. -/
def Thread.bufs (t : Thread) : List (Fin nbuf) := t.phase.bufs ++ t.held

/-- The buffer that log_write is logging: changed, and marked dirty at the end. -/
def Phase.logs : Phase → Option (Fin nbuf)
  | .bget (.log c _) _ _ _ | .bread (.log c _) _ _ _ | .logPut c _ _ => some c
  | _ => none

/-- bget has returned the buffer for the sector and bread has not. -/
def Phase.awaits : Phase → Option (Fin nbuf × Nat × Nat)
  | .bread _ dev sector b => some (b, dev, sector)
  | _ => none

/-! The list of the buffers. -/

/-- The links from bcache.head go once through every buffer. -/
def Listed (links : Links Node) : Prop :=
  ∃ order : List (Fin nbuf), order.Perm (List.finRange nbuf) ∧ IsRing links .head (order.map .buf)

theorem pushAll_ring (bs order : List (Fin nbuf)) (links : Links Node)
    (ring : IsRing links .head (order.map .buf)) (nodup : (bs ++ order).Nodup) :
    IsRing (bs.foldl (fun links b => pushFront links .head (.buf b)) links) .head
      ((bs.reverse ++ order).map .buf) := by
  induction bs generalizing order links with
  | nil => exact ring
  | cons b rest ih =>
    obtain ⟨fresh, nodup'⟩ := List.nodup_cons.mp nodup
    have pushed : IsRing (pushFront links .head (.buf b)) .head ((b :: order).map .buf) := by
      refine ring_pushFront ring ?_
      simpa using fun member => fresh (List.mem_append_right _ member)
    have shifted : (rest ++ b :: order).Nodup :=
      (List.perm_middle.nodup_iff).mpr (List.nodup_cons.mpr ⟨fresh, nodup'⟩)
    simpa using ih (b :: order) _ pushed shifted

theorem listed_binit : Listed binitLinks := by
  refine ⟨(List.finRange nbuf).reverse, List.reverse_perm _, ?_⟩
  have alone : IsRing (⟨fun _ => .head, fun _ => .head⟩ : Links Node) .head [] :=
    ⟨⟨rfl, rfl⟩, by simp⟩
  have all := pushAll_ring (List.finRange nbuf) [] _ alone
    (by simpa using List.nodup_finRange nbuf)
  rwa [List.append_nil] at all

theorem listed_toFront {links : Links Node} (listed : Listed links) (b : Fin nbuf) :
    Listed (pushFront (unlink links (.buf b)) .head (.buf b)) := by
  obtain ⟨order, perm, ring⟩ := listed
  obtain ⟨before, behind, rfl⟩ := List.append_of_mem (perm.mem_iff.mpr (List.mem_finRange b))
  refine ⟨b :: (before ++ behind), List.perm_middle.symm.trans perm, ?_⟩
  rw [List.map_append, List.map_cons] at ring
  simpa using ring_moveFront ring

section Scans
variable {δ : Type}

theorem uncached_of_seek {cache : Cache δ} {dev sector : Nat} (listed : Listed cache.links)
    (missed : seek cache.links.next .head (caches cache dev sector) (nbuf + 1)
      (cache.links.next .head) = none) (b : Fin nbuf) :
    ¬((cache.buf b).dev = dev ∧ (cache.buf b).sector = sector) := by
  obtain ⟨order, perm, ring⟩ := listed
  have short : (order.map Node.buf).length < nbuf + 1 := by
    rw [List.length_map, perm.length_eq, List.length_finRange]
    exact Nat.lt_succ_self _
  have member : Node.buf b ∈ order.map Node.buf :=
    List.mem_map_of_mem (perm.mem_iff.mpr (List.mem_finRange b))
  simpa [caches] using seek_ring_none ring short missed member

/-- What one pass of bget does. -/
inductive BgetSpec (cache : Cache δ) (dev sector : Nat) : Got δ → Prop
  | sleep (b : Fin nbuf) : BgetSpec cache dev sector (.sleep b)
  | hit (b : Fin nbuf) (isDev : (cache.buf b).dev = dev) (isSector : (cache.buf b).sector = sector)
      (free : (cache.buf b).busy = false) :
      BgetSpec cache dev sector (.taken (cache.setBuf b { cache.buf b with busy := true }) b)
  | recycled (b : Fin nbuf)
      (absent : ∀ c, ¬((cache.buf c).dev = dev ∧ (cache.buf c).sector = sector))
      (free : (cache.buf b).busy = false) (clean : (cache.buf b).dirty = false) :
      BgetSpec cache dev sector
        (.taken (cache.setBuf b ⟨dev, sector, true, false, false, (cache.buf b).data⟩) b)
  | noBuffers : BgetSpec cache dev sector .noBuffers

theorem bget_spec {cache : Cache δ} (listed : Listed cache.links) (dev sector : Nat) :
    BgetSpec cache dev sector (bget cache dev sector) := by
  unfold bget
  split
  · rename_i b found
    obtain ⟨_, same⟩ := seek_some found
    simp only [caches, Bool.and_eq_true, beq_iff_eq] at same
    split
    · exact .sleep b
    · rename_i free
      exact .hit b same.1 same.2 (Bool.not_eq_true _ ▸ free)
  · rename_i notBuf
    have missed : seek cache.links.next .head (caches cache dev sector) (nbuf + 1)
        (cache.links.next .head) = none := by
      cases found : seek cache.links.next .head (caches cache dev sector) (nbuf + 1)
          (cache.links.next .head) with
      | none => rfl
      | some node =>
        cases node with
        | head => exact absurd rfl (seek_some found).1
        | buf b => exact absurd found (notBuf b)
    split
    · rename_i b found
      obtain ⟨_, idle⟩ := seek_some found
      simp only [reusable, Bool.and_eq_true, Bool.not_eq_true'] at idle
      exact .recycled b (uncached_of_seek listed missed) idle.1 idle.2
    · exact .noBuffers

end Scans

/-! Ownership: each busy buffer is on one list of buffers, and there once. -/

structure Owners (busy : Fin nbuf → Bool) (own : Nat → List (Fin nbuf)) : Prop where
  once : ∀ p, (own p).Nodup
  busy : ∀ b, busy b = true ↔ ∃ p, b ∈ own p
  one : ∀ p q b, b ∈ own p → b ∈ own q → p = q

section Owning
variable {busy busy' : Fin nbuf → Bool} {own own' : Nat → List (Fin nbuf)} {p : Nat} {b : Fin nbuf}

theorem owners_perm (owners : Owners busy own) (same : ∀ b, busy' b = busy b)
    (perm : ∀ q, (own' q).Perm (own q)) : Owners busy' own' where
  once q := (perm q).nodup_iff.mpr (owners.once q)
  busy b := by
    rw [same, owners.busy]
    exact exists_congr fun q => (perm q).mem_iff.symm
  one q r b inQ inR := owners.one q r b ((perm q).mem_iff.mp inQ) ((perm r).mem_iff.mp inR)

theorem owners_gain (owners : Owners busy own) (free : busy b = false)
    (taken : ∀ c, busy' c = if c = b then true else busy c)
    (gained : (own' p).Perm (b :: own p)) (others : ∀ q, q ≠ p → own' q = own q) :
    Owners busy' own' := by
  have nobody : ∀ q, b ∉ own q := by
    intro q member
    rw [(owners.busy b).mpr ⟨q, member⟩] at free
    cases free
  have mem : ∀ q c, c ∈ own' q ↔ (q = p ∧ c = b) ∨ c ∈ own q := by
    intro q c
    by_cases same : q = p
    · subst same
      simp [gained.mem_iff]
    · simp [others q same, same]
  refine ⟨fun q => ?_, fun c => ?_, fun q r c inQ inR => ?_⟩
  · by_cases same : q = p
    · subst same
      exact gained.nodup_iff.mpr (List.nodup_cons.mpr ⟨nobody _, owners.once _⟩)
    · rw [others q same]
      exact owners.once q
  · rw [taken]
    split
    · rename_i same
      exact ⟨fun _ => ⟨p, (mem p c).mpr (.inl ⟨rfl, same⟩)⟩, fun _ => rfl⟩
    · rename_i other
      simp [mem, other, owners.busy]
  · rcases (mem q c).mp inQ with ⟨rfl, rfl⟩ | oldQ <;> rcases (mem r c).mp inR with ⟨rfl, same⟩ | oldR
    · rfl
    · exact absurd oldR (nobody r)
    · exact absurd (same ▸ oldQ) (nobody q)
    · exact owners.one q r c oldQ oldR

theorem owners_drop (owners : Owners busy own)
    (freed : ∀ c, busy' c = if c = b then false else busy c)
    (dropped : (own p).Perm (b :: own' p)) (others : ∀ q, q ≠ p → own' q = own q) :
    Owners busy' own' := by
  have nodup : b ∉ own' p ∧ (own' p).Nodup :=
    List.nodup_cons.mp (dropped.nodup_iff.mp (owners.once p))
  have held : b ∈ own p := dropped.mem_iff.mpr List.mem_cons_self
  have mem : ∀ q c, c ∈ own' q ↔ c ≠ b ∧ c ∈ own q := by
    intro q c
    by_cases same : q = p
    · subst same
      rw [dropped.mem_iff, List.mem_cons]
      refine ⟨fun member => ⟨fun eq => nodup.1 (eq ▸ member), .inr member⟩, ?_⟩
      rintro ⟨other, rfl | member⟩
      · exact absurd rfl other
      · exact member
    · rw [others q same]
      refine ⟨fun member => ⟨fun eq => same ?_, member⟩, And.right⟩
      exact owners.one q p b (eq ▸ member) held
  refine ⟨fun q => ?_, fun c => ?_, fun q r c inQ inR => ?_⟩
  · by_cases same : q = p
    · subst same
      exact nodup.2
    · rw [others q same]
      exact owners.once q
  · rw [freed]
    split
    · rename_i same
      simp [mem, same]
    · rename_i other
      simp [mem, other, owners.busy]
  · exact owners.one q r c ((mem q c).mp inQ).2 ((mem r c).mp inR).2

end Owning

/-! The data of the buffers. -/

/-- `pend` are the buffers changed but not yet marked dirty, `got` those that bget has
returned and bread has not. -/
structure Coherent {δ : Type} (pend got : Fin nbuf → Prop) (cache : Cache δ) : Prop where
  listed : Listed cache.links
  unique : ∀ b c, (cache.buf b).dev ≠ noDev → (cache.buf b).dev = (cache.buf c).dev →
    (cache.buf b).sector = (cache.buf c).sector → b = c
  device : ∀ b, (cache.buf b).valid = true → (cache.buf b).dev = 1
  filled : ∀ b, (cache.buf b).dev = 1 → (cache.buf b).valid = true ∨ got b
  whole : ∀ b, (cache.buf b).dev = 1 → (cache.buf b).dirty = true → (cache.buf b).valid = true
  clean : ∀ b, (cache.buf b).valid = true → (cache.buf b).dirty = false → ¬pend b →
    cache.disk (cache.buf b).sector = (cache.buf b).data
  kept : ∀ b, (cache.buf b).dev = 1 → (cache.buf b).busy = false →
    (cache.buf b).data = cache.left (cache.buf b).sector
  fresh : ∀ b, got b → (cache.buf b).valid = true →
    (cache.buf b).data = cache.left (cache.buf b).sector
  unread : ∀ b, got b → (cache.buf b).dev = 1 → (cache.buf b).valid = false →
    cache.disk (cache.buf b).sector = cache.left (cache.buf b).sector
  home : ∀ x, (∀ b, ¬((cache.buf b).dev = 1 ∧ (cache.buf b).sector = x)) →
    cache.disk x = cache.left x

section Data
variable {δ : Type} {pend pend' got got' : Fin nbuf → Prop} {cache cache' : Cache δ} {b : Fin nbuf}

theorem coherent_weaken (coherent : Coherent pend got cache) (more : ∀ c, pend c → pend' c)
    (same : ∀ c, got c ↔ got' c) : Coherent pend' got' cache where
  listed := coherent.listed
  unique := coherent.unique
  device := coherent.device
  filled c isDisk := (coherent.filled c isDisk).imp_right (same c).mp
  whole := coherent.whole
  clean c isValid isClean settled :=
    coherent.clean c isValid isClean fun pending => settled (more c pending)
  kept := coherent.kept
  fresh c member := coherent.fresh c ((same c).mpr member)
  unread c member := coherent.unread c ((same c).mpr member)
  home := coherent.home

theorem unique_sector (coherent : Coherent pend got cache) {c : Fin nbuf}
    (devB : (cache.buf b).dev = 1) (devC : (cache.buf c).dev = 1) (other : c ≠ b) :
    (cache.buf c).sector ≠ (cache.buf b).sector := by
  intro same
  refine other (coherent.unique c b ?_ (devC.trans devB.symm) same)
  rw [devC]
  decide

theorem home_update (coherent : Coherent pend got cache)
    (same : ∀ c, (cache'.buf c).dev = (cache.buf c).dev ∧
      (cache'.buf c).sector = (cache.buf c).sector)
    (away : ∀ x, (cache.buf b).dev = 1 ∧ (cache.buf b).sector = x ∨
      cache'.disk x = cache.disk x ∧ cache'.left x = cache.left x) (x : Nat)
    (absent : ∀ c, ¬((cache'.buf c).dev = 1 ∧ (cache'.buf c).sector = x)) :
    cache'.disk x = cache'.left x := by
  have absent' : ∀ c, ¬((cache.buf c).dev = 1 ∧ (cache.buf c).sector = x) := by
    intro c
    rw [← (same c).1, ← (same c).2]
    exact absent c
  obtain ⟨disk, left⟩ := (away x).resolve_left (absent' b)
  rw [disk, left]
  exact coherent.home x absent'

@[grind =]
theorem setBuf_buf (x : Buf δ) (c : Fin nbuf) :
    (cache.setBuf b x).buf c = if c = b then x else cache.buf c := rfl

@[grind =]
theorem setBuf_disk (x : Buf δ) : (cache.setBuf b x).disk = cache.disk := rfl

@[grind =]
theorem setBuf_left (x : Buf δ) : (cache.setBuf b x).left = cache.left := rfl

@[grind =]
theorem setBuf_links (x : Buf δ) : (cache.setBuf b x).links = cache.links := rfl

theorem coherent_hit (coherent : Coherent pend got cache) (free : (cache.buf b).busy = false)
    (notGot : ¬got b) :
    Coherent pend (fun c => c = b ∨ got c) (cache.setBuf b { cache.buf b with busy := true }) := by
  obtain ⟨listed, unique, device, filled, whole, clean, kept, fresh, unread, _⟩ := id coherent
  constructor
  case home => exact home_update coherent (b := b) (by grind) fun x => .inr ⟨rfl, rfl⟩
  all_goals grind

theorem coherent_recycled (coherent : Coherent pend got cache) {dev sector : Nat}
    (absent : ∀ c, ¬((cache.buf c).dev = dev ∧ (cache.buf c).sector = sector))
    (free : (cache.buf b).busy = false) (isClean : (cache.buf b).dirty = false)
    (notGot : ¬got b) (settled : ¬pend b) :
    Coherent pend (fun c => c = b ∨ got c)
      (cache.setBuf b ⟨dev, sector, true, false, false, (cache.buf b).data⟩) := by
  -- The old sector loses its buffer, which is clean and was left as it is on disk.
  have old : (cache.buf b).dev = 1 →
      cache.disk (cache.buf b).sector = cache.left (cache.buf b).sector := by
    intro isDisk
    have isValid := (coherent.filled b isDisk).resolve_right notGot
    rw [coherent.clean b isValid isClean settled, coherent.kept b isDisk free]
  have ⟨listed, unique, device, filled, whole, clean, kept, fresh, unread, home⟩ := coherent
  constructor
  case home =>
    intro x uncached
    by_cases was : (cache.buf b).dev = 1 ∧ (cache.buf b).sector = x
    · rw [← was.2]
      exact old was.1
    · refine home x fun c => ?_
      by_cases same : c = b
      · rwa [same]
      · have other := uncached c
        rwa [setBuf_buf, if_neg same] at other
  case unread =>
    intro c member isDisk notValid
    by_cases same : c = b
    · rw [setBuf_buf, if_pos same] at isDisk ⊢
      exact home sector fun c => by
        change dev = 1 at isDisk
        rw [← isDisk]
        exact absent c
    · grind
  all_goals grind

theorem coherent_breadData (coherent : Coherent pend got cache) (isGot : got b)
    (held : (cache.buf b).busy = true) (done : breadData cache b = some cache') :
    Coherent pend (fun c => c ≠ b ∧ got c) cache' ∧
      (∀ c, (cache'.buf c).busy = (cache.buf c).busy ∧ (cache'.buf c).dev = (cache.buf c).dev ∧
        (cache'.buf c).sector = (cache.buf c).sector) ∧
      cache'.left = cache.left ∧ (cache'.buf b).dev = 1 ∧
      (cache'.buf b).data = cache.left (cache.buf b).sector := by
  unfold breadData at done
  split at done
  · rename_i isValid
    cases done
    refine ⟨?_, fun c => ⟨rfl, rfl, rfl⟩, rfl, coherent.device b isValid,
      coherent.fresh b isGot isValid⟩
    have ⟨listed, unique, device, filled, whole, clean, kept, fresh, unread, home⟩ := coherent
    constructor <;> grind
  · rename_i notValid
    have empty : (cache.buf b).valid = false := by simpa using notValid
    by_cases isDisk : (cache.buf b).dev = 1
    · have dry : (cache.buf b).dirty = false := by
        by_contra isDirty
        exact notValid (coherent.whole b isDisk (by simpa using isDirty))
      have stale := coherent.unread b isGot isDisk empty
      have shape : cache' = cache.setBuf b
          { cache.buf b with data := cache.disk (cache.buf b).sector, valid := true } := by
        simp [iderw, held, empty, isDisk, dry] at done
        simp [← done.2, held, isDisk, dry]
      subst shape
      refine ⟨?_, by grind, rfl, by grind, by grind⟩
      obtain ⟨listed, unique, device, filled, whole, clean, kept, fresh, unread, _⟩ := id coherent
      constructor
      case home => exact home_update coherent (b := b) (by grind) fun x => .inr ⟨rfl, rfl⟩
      all_goals grind
    · simp [iderw, held, empty, isDisk] at done

theorem coherent_bwrite (coherent : Coherent pend got cache) (held : (cache.buf b).busy = true)
    (notGot : ¬got b) {data : δ} (done : bwrite (modify cache b data) b = some cache') :
    Coherent pend got cache' ∧ ∀ c, (cache'.buf c).busy = (cache.buf c).busy ∧
      (cache'.buf c).dev = (cache.buf c).dev ∧ (cache'.buf c).sector = (cache.buf c).sector := by
  by_cases isDisk : (cache.buf b).dev = 1
  · have shape : cache' = { cache.setBuf b { cache.buf b with
        data := data, dirty := false, valid := true } with
          disk := store cache.disk (cache.buf b).sector data } := by
      simp [bwrite, iderw, modify, markDirty, Cache.setBuf, held, isDisk] at done
      rw [← done.2]
      simp only [Cache.setBuf, Cache.mk.injEq, and_true, true_and]
      funext c
      by_cases same : c = b <;> simp [same, isDisk, held]
    have bufs : ∀ c, cache'.buf c = if c = b then
        { cache.buf b with data := data, dirty := false, valid := true } else cache.buf c :=
      fun c => by rw [shape]; rfl
    have disk : ∀ x, cache'.disk x = if x = (cache.buf b).sector then data else cache.disk x :=
      fun x => by rw [shape]; rfl
    have left : cache'.left = cache.left := by rw [shape]; rfl
    have links : cache'.links = cache.links := by rw [shape]; rfl
    clear shape done
    have others := fun c (devC : (cache.buf c).dev = 1) => unique_sector coherent isDisk devC
    obtain ⟨listed, unique, device, filled, whole, clean, kept, fresh, unread, _⟩ := id coherent
    have same : ∀ c, (cache'.buf c).busy = (cache.buf c).busy ∧
        (cache'.buf c).dev = (cache.buf c).dev ∧
        (cache'.buf c).sector = (cache.buf c).sector := by grind
    refine ⟨?_, same⟩
    constructor
    case home =>
      refine home_update coherent (b := b) (fun c => (same c).2) fun x => ?_
      by_cases at_ : (cache.buf b).sector = x
      · exact .inl ⟨isDisk, at_⟩
      · exact .inr ⟨by rw [disk, if_neg fun eq => at_ eq.symm], by rw [left]⟩
    all_goals grind
  · simp [bwrite, iderw, modify, markDirty, Cache.setBuf, held, isDisk] at done

theorem coherent_modify (coherent : Coherent pend got cache) (held : (cache.buf b).busy = true)
    (notGot : ¬got b) (pending : pend b) (data : δ) :
    Coherent pend got (modify cache b data) := by
  obtain ⟨listed, unique, device, filled, whole, clean, kept, fresh, unread, _⟩ := id coherent
  constructor
  case home =>
    exact home_update coherent (b := b) (by grind [modify]) fun x => .inr ⟨rfl, rfl⟩
  all_goals grind [modify]

theorem coherent_markDirty (coherent : Coherent pend got cache) (notGot : ¬got b)
    (rest : ∀ c, pend c → c = b ∨ pend' c) : Coherent pend' got (markDirty cache b) := by
  obtain ⟨listed, unique, device, filled, whole, clean, kept, fresh, unread, _⟩ := id coherent
  constructor
  case home =>
    exact home_update coherent (b := b) (by grind [markDirty]) fun x => .inr ⟨rfl, rfl⟩
  all_goals grind [markDirty]

theorem coherent_brelse (coherent : Coherent pend got cache) (notGot : ¬got b)
    (done : brelse cache b = some cache') :
    Coherent pend got cache' ∧ ∀ c, (cache'.buf c).dev = (cache.buf c).dev ∧
      (cache'.buf c).sector = (cache.buf c).sector ∧
      (cache'.buf c).busy = if c = b then false else (cache.buf c).busy := by
  by_cases held : (cache.buf b).busy = true
  · simp only [brelse, held, if_true, Option.some.injEq] at done
    have bufs : ∀ c, cache'.buf c =
        if c = b then { cache.buf b with busy := false } else cache.buf c := by
      rw [← done]
      exact fun c => rfl
    have disk : cache'.disk = cache.disk := by rw [← done]; rfl
    have left : ∀ x, cache'.left x = if (cache.buf b).dev = 1 ∧ (cache.buf b).sector = x then
        (cache.buf b).data else cache.left x := by
      intro x
      rw [← done]
      by_cases devB : (cache.buf b).dev = 1 <;> simp [devB, store, eq_comm]
    have front : Listed cache'.links := by
      rw [← done]
      exact listed_toFront coherent.listed b
    clear done
    have others := fun c (devB : (cache.buf b).dev = 1) (devC : (cache.buf c).dev = 1) =>
      unique_sector coherent devB devC
    obtain ⟨listed, unique, device, filled, whole, clean, kept, fresh, unread, _⟩ := id coherent
    have same : ∀ c, (cache'.buf c).dev = (cache.buf c).dev ∧
        (cache'.buf c).sector = (cache.buf c).sector ∧
        (cache'.buf c).busy = if c = b then false else (cache.buf c).busy := by grind
    refine ⟨?_, same⟩
    constructor
    case home =>
      refine home_update coherent (b := b) (fun c => ⟨(same c).1, (same c).2.1⟩) fun x => ?_
      by_cases at_ : (cache.buf b).dev = 1 ∧ (cache.buf b).sector = x
      · exact .inl at_
      · exact .inr ⟨by rw [disk], by rw [left, if_neg at_]⟩
    all_goals grind
  · simp [brelse, held] at done

theorem coherent_binit (blank : δ) (disk : Nat → δ) (disksize : Nat) :
    Coherent (fun _ => False) (fun _ => False) (binit blank disk disksize) where
  listed := listed_binit
  unique b c real := absurd rfl real
  device b isValid := by cases isValid
  filled b isDisk := by cases isDisk
  whole b isDisk := by cases isDisk
  clean b isValid := by cases isValid
  kept b isDisk := by cases isDisk
  fresh b member := member.elim
  unread b member := member.elim
  home x _ := rfl

end Data

/-! The whole system. -/

def Pending (threads : Nat → Thread) (b : Fin nbuf) : Prop :=
  ∃ p, (threads p).phase.logs = some b

def Awaited (threads : Nat → Thread) (b : Fin nbuf) : Prop :=
  ∃ p request, (threads p).phase.awaits = some (b, request)

/-- `extra` are buffers that are changed and will be marked dirty in the same step. -/
structure Inv (extra : Fin nbuf → Prop) (s : State) : Prop where
  coherent : Coherent (fun b => extra b ∨ Pending s.thread b) (Awaited s.thread) s.cache
  owners : Owners (fun b => (s.cache.buf b).busy) fun p => (s.thread p).bufs
  logged : ∀ p c, (s.thread p).phase.logs = some c → c ∈ (s.thread p).held
  request : ∀ p b dev sector, (s.thread p).phase.awaits = some (b, dev, sector) →
    (s.cache.buf b).dev = dev ∧ (s.cache.buf b).sector = sector

theorem awaits_mem {t : Thread} {b : Fin nbuf} {request : Nat × Nat}
    (awaits : t.phase.awaits = some (b, request)) : b ∈ t.bufs := by
  obtain ⟨phase, held⟩ := t
  cases phase <;> simp [Phase.awaits] at awaits
  simp [Thread.bufs, Phase.bufs, awaits.1]

section Waking
variable (b : Fin nbuf) (t : Thread)

@[simp] theorem wake_bufs : (wake b t).bufs = t.bufs := by
  unfold wake
  split
  · rename_i k dev sector chan asleep
    split <;> simp [Thread.bufs, asleep, Phase.bufs]
  · rfl

@[simp] theorem wake_held : (wake b t).held = t.held := by
  unfold wake
  repeat' split
  all_goals rfl

@[simp] theorem wake_logs : (wake b t).phase.logs = t.phase.logs := by
  unfold wake
  split
  · rename_i k dev sector chan asleep
    split
    · cases k <;> simp [asleep, Phase.logs]
    · rfl
  · rfl

@[simp] theorem wake_awaits : (wake b t).phase.awaits = t.phase.awaits := by
  unfold wake
  split
  · rename_i k dev sector chan asleep
    split <;> simp [asleep, Phase.awaits]
  · rfl

end Waking

section System
variable {extra : Fin nbuf → Prop} {s s' : State} {p : Nat} {b : Fin nbuf} {t : Thread}

theorem not_awaited (inv : Inv extra s) (member : b ∈ (s.thread p).bufs)
    (quiet : (s.thread p).phase.awaits = none) : ¬Awaited s.thread b := by
  rintro ⟨q, request, awaits⟩
  have same := inv.owners.one q p b (awaits_mem awaits) member
  rw [same, quiet] at awaits
  cases awaits

theorem busy_of_mem (inv : Inv extra s) (member : b ∈ (s.thread p).bufs) :
    (s.cache.buf b).busy = true :=
  (inv.owners.busy b).mpr ⟨p, member⟩

theorem not_mem_of_free (inv : Inv extra s) (free : (s.cache.buf b).busy = false) (q : Nat) :
    b ∉ (s.thread q).bufs := by
  intro member
  rw [busy_of_mem inv member] at free
  cases free

theorem inv_setLog (inv : Inv extra s) (log : Log) : Inv extra (s.setLog log) :=
  ⟨inv.coherent, inv.owners, inv.logged, inv.request⟩

theorem inv_move (inv : Inv extra s) (bufs : t.bufs = (s.thread p).bufs)
    (awaits : t.phase.awaits = (s.thread p).phase.awaits)
    (logs : ∀ c, (s.thread p).phase.logs = some c → t.phase.logs = some c)
    (logged : ∀ c, t.phase.logs = some c → c ∈ t.held) : Inv extra (s.put p s.cache t) where
  coherent := by
    refine coherent_weaken inv.coherent (fun c pending => pending.imp_right ?_) fun c => ?_
    · rintro ⟨q, pending⟩
      refine ⟨q, ?_⟩
      by_cases same : q = p
      · simpa [State.put, same] using logs c (same ▸ pending)
      · simpa [State.put, same] using pending
    · refine exists_congr fun q => ?_
      by_cases same : q = p <;> simp [State.put, same, awaits]
  owners := by
    refine owners_perm inv.owners (fun c => rfl) fun q => ?_
    by_cases same : q = p <;> simp [State.put, same, bufs]
  logged q c := by
    by_cases same : q = p
    · simpa [State.put, same] using logged c
    · simpa [State.put, same] using inv.logged q c
  request q c dev sector := by
    by_cases same : q = p
    · simpa [State.put, same, awaits] using inv.request p c dev sector
    · simpa [State.put, same] using inv.request q c dev sector

theorem inv_bwrite (inv : Inv extra s) (member : b ∈ (s.thread p).bufs)
    (quiet : (s.thread p).phase.awaits = none) {data : Block} {cache : Cache Block}
    (done : bwrite (modify s.cache b data) b = some cache) : Inv extra { s with cache := cache } := by
  obtain ⟨coherent, same⟩ := coherent_bwrite inv.coherent (busy_of_mem inv member)
    (not_awaited inv member quiet) done
  refine ⟨coherent, owners_perm inv.owners (fun c => (same c).1) fun q => .refl _, inv.logged, ?_⟩
  intro q c dev sector awaits
  rw [(same c).2.1, (same c).2.2]
  exact inv.request q c dev sector awaits

theorem inv_release (inv : Inv extra s) (drops : (s.thread p).bufs.Perm (b :: t.bufs))
    (quiet : (s.thread p).phase.awaits = none) (quiet' : t.phase.awaits = none)
    (logs : ∀ c, (s.thread p).phase.logs = some c → extra c)
    (logs' : t.phase.logs = none) (done : s.release p b t = some s') :
    Inv extra s' ∧ s'.log = s.log ∧ s'.thread p = t := by
  obtain ⟨cache, released, rfl⟩ := Option.map_eq_some_iff.mp done
  have member : b ∈ (s.thread p).bufs := drops.mem_iff.mpr List.mem_cons_self
  obtain ⟨coherent, same⟩ := coherent_brelse inv.coherent (not_awaited inv member quiet) released
  refine ⟨⟨?_, ?_, ?_, ?_⟩, rfl, by simp⟩
  · refine coherent_weaken coherent (fun c pending => ?_) fun c => ?_
    · rcases pending with before | ⟨q, pending⟩
      · exact .inl before
      · by_cases same : q = p
        · exact .inl (logs c (same ▸ pending))
        · exact .inr ⟨q, by simpa [same] using pending⟩
    · refine exists_congr fun q => ?_
      by_cases same : q = p <;> simp [same, quiet, quiet']
  · refine owners_drop inv.owners (fun c => (same c).2.2) (p := p) (by simpa using drops) ?_
    intro q other
    simp [other]
  · intro q c
    by_cases same : q = p
    · simp [same, logs']
    · simpa [same] using inv.logged q c
  · intro q c dev sector
    rw [(same c).1, (same c).2.1]
    by_cases same : q = p
    · simp [same, quiet']
    · simpa [same] using inv.request q c dev sector

theorem inv_taken (inv : Inv extra s) {k : Cont} {dev sector : Nat} {chan : Option (Fin nbuf)}
    (phase : (s.thread p).phase = .bget k dev sector chan) {cache : Cache Block}
    (coherent : Coherent (fun c => extra c ∨ Pending s.thread c)
      (fun c => c = b ∨ Awaited s.thread c) cache)
    (free : (s.cache.buf b).busy = false)
    (taken : ∀ c, (cache.buf c).busy = if c = b then true else (s.cache.buf c).busy)
    (named : (cache.buf b).dev = dev ∧ (cache.buf b).sector = sector)
    (others : ∀ c, c ≠ b → cache.buf c = s.cache.buf c) :
    Inv extra (s.put p cache { s.thread p with phase := .bread k dev sector b }) where
  coherent := by
    refine coherent_weaken coherent (fun c pending => pending.imp_right ?_) fun c => ?_
    · rintro ⟨q, pending⟩
      refine ⟨q, ?_⟩
      by_cases same : q = p
      · rw [same, phase] at pending
        cases k <;> simpa [State.put, same, Phase.logs] using pending
      · simpa [State.put, same] using pending
    · constructor
      · rintro (rfl | ⟨q, request, awaits⟩)
        · exact ⟨p, (dev, sector), by simp [State.put, Phase.awaits]⟩
        · have other : q ≠ p := by
            rintro rfl
            rw [phase] at awaits
            cases awaits
          exact ⟨q, request, by simpa [State.put, other] using awaits⟩
      · rintro ⟨q, request, awaits⟩
        by_cases same : q = p
        · simp only [State.put, same, if_true, Phase.awaits, Option.some.injEq,
            Prod.mk.injEq] at awaits
          exact .inl awaits.1.symm
        · exact .inr ⟨q, request, by simpa [State.put, same] using awaits⟩
  owners := by
    refine owners_gain inv.owners free taken (p := p) ?_ fun q other => ?_
    · simp [State.put, Thread.bufs, Phase.bufs, phase]
    · simp [State.put, other]
  logged q c := by
    by_cases same : q = p
    · have before := inv.logged p c
      rw [phase] at before
      cases k <;> simpa [State.put, same, Phase.logs] using before
    · simpa [State.put, same] using inv.logged q c
  request q c dev' sector' awaits := by
    by_cases same : q = p
    · simp only [State.put, same, if_true, Phase.awaits, Option.some.injEq,
        Prod.mk.injEq] at awaits
      obtain ⟨rfl, rfl, rfl⟩ := awaits
      exact named
    · have before : (s.thread q).phase.awaits = some (c, dev', sector') := by
        simpa [State.put, same] using awaits
      have other : c ≠ b := by
        rintro rfl
        exact not_mem_of_free inv free q (awaits_mem before)
      change (cache.buf c).dev = dev' ∧ (cache.buf c).sector = sector'
      rw [others c other]
      exact inv.request q c dev' sector' before

theorem not_pending_of_free (inv : Inv extra s) (none : ∀ c, ¬extra c)
    (free : (s.cache.buf b).busy = false) : ¬(extra b ∨ Pending s.thread b) := by
  rintro (now | ⟨q, pending⟩)
  · exact none b now
  · exact not_mem_of_free inv free q (List.mem_append_right _ (inv.logged q b pending))

theorem not_awaited_of_free (inv : Inv extra s) (free : (s.cache.buf b).busy = false) :
    ¬Awaited s.thread b := by
  rintro ⟨q, request, awaits⟩
  exact not_mem_of_free inv free q (awaits_mem awaits)

theorem inv_bget (inv : Inv (fun _ => False) s) {k : Cont} {dev sector : Nat}
    (phase : (s.thread p).phase = .bget k dev sector none) (done : run s p = some s') :
    Inv (fun _ => False) s' := by
  simp only [run, phase] at done
  have spec := bget_spec inv.coherent.listed dev sector
  generalize bget s.cache dev sector = got at done spec
  cases spec with
  | sleep b =>
    cases done
    refine inv_move inv ?_ ?_ ?_ ?_
    · simp [Thread.bufs, Phase.bufs, phase]
    · simp [Phase.awaits, phase]
    · cases k <;> simp [Phase.logs, phase]
    · have before := inv.logged p
      rw [phase] at before
      cases k <;> simpa [Phase.logs] using before
  | hit b isDev isSector free =>
    cases done
    refine inv_taken inv phase (coherent_hit inv.coherent free (not_awaited_of_free inv free)) free
      ?_ ?_ ?_
    · grind
    · simp [setBuf_buf, isDev, isSector]
    · grind
  | recycled b absent free isClean =>
    cases done
    refine inv_taken inv phase (coherent_recycled inv.coherent absent free isClean
      (not_awaited_of_free inv free) (not_pending_of_free inv (fun _ no => no) free)) free
      ?_ ?_ ?_
    · grind
    · simp [setBuf_buf]
    · grind
  | noBuffers => cases done

theorem inv_bread (inv : Inv extra s) {k : Cont} {dev sector : Nat}
    (phase : (s.thread p).phase = .bread k dev sector b) (done : run s p = some s') :
    Inv extra s' ∧ s'.cache.left = s.cache.left ∧ dev = 1 ∧ (s'.cache.buf b).dev = dev ∧
      (s'.cache.buf b).sector = sector ∧ (s'.cache.buf b).data = s.cache.left sector := by
  simp only [run, phase] at done
  obtain ⟨cache, read, rfl⟩ := Option.map_eq_some_iff.mp done
  have awaits : (s.thread p).phase.awaits = some (b, dev, sector) := by rw [phase]; rfl
  have held : b ∈ (s.thread p).bufs := awaits_mem awaits
  obtain ⟨rfl, rfl⟩ := inv.request p b dev sector awaits
  obtain ⟨coherent, same, left, isDisk, data⟩ :=
    coherent_breadData inv.coherent ⟨p, _, awaits⟩ (busy_of_mem inv held) read
  have quiet : (proceed s.log (s.thread p) b k).phase.awaits = none := by cases k <;> rfl
  refine ⟨⟨?_, ?_, ?_, ?_⟩, left, ?_, (same b).2.1, (same b).2.2, data⟩
  · refine coherent_weaken coherent (fun c pending => pending.imp_right ?_) fun c => ?_
    · rintro ⟨q, pending⟩
      refine ⟨q, ?_⟩
      by_cases same : q = p
      · rw [same, phase] at pending
        cases k <;> simpa [State.put, same, proceed, Phase.logs] using pending
      · simpa [State.put, same] using pending
    · constructor
      · rintro ⟨other, q, request, awaits'⟩
        have away : q ≠ p := by
          rintro rfl
          rw [awaits] at awaits'
          cases awaits'
          exact other rfl
        exact ⟨q, request, by simpa [State.put, away] using awaits'⟩
      · rintro ⟨q, request, awaits'⟩
        by_cases same : q = p
        · simp [State.put, same, quiet] at awaits'
        · have before : (s.thread q).phase.awaits = some (c, request) := by
            simpa [State.put, same] using awaits'
          refine ⟨?_, q, request, before⟩
          rintro rfl
          exact same (inv.owners.one q p c (awaits_mem before) held)
  · refine owners_perm inv.owners (fun c => (same c).1) fun q => ?_
    by_cases here : q = p
    · subst here
      cases k <;> simp [State.put, proceed, Thread.bufs, Phase.bufs, Cont.bufs, phase]
      exact List.Perm.swap _ _ _
    · simp [State.put, here]
  · intro q c
    by_cases here : q = p
    · have before := inv.logged p c
      rw [phase] at before
      cases k <;> simpa [State.put, here, proceed, Phase.logs] using before
    · simpa [State.put, here] using inv.logged q c
  · intro q c dev' sector'
    by_cases here : q = p
    · simp [State.put, here, quiet]
    · have before := inv.request q c dev' sector'
      rw [← (same c).2.1, ← (same c).2.2] at before
      simpa [State.put, here] using before
  · rw [← (same b).2.1]
    exact isDisk

theorem inv_extra {extra' : Fin nbuf → Prop} (inv : Inv extra s)
    (more : ∀ c, extra c → extra' c) : Inv extra' s :=
  ⟨coherent_weaken inv.coherent (fun c => Or.imp_left (more c)) fun _ => .rfl, inv.owners,
    inv.logged, inv.request⟩

theorem inv_markDirty (inv : Inv (fun c => c = b) s) (member : b ∈ (s.thread p).bufs)
    (quiet : (s.thread p).phase.awaits = none) :
    Inv (fun _ => False) { s with cache := markDirty s.cache b } := by
  have same : ∀ c, ((markDirty s.cache b).buf c).busy = (s.cache.buf c).busy ∧
      ((markDirty s.cache b).buf c).dev = (s.cache.buf c).dev ∧
      ((markDirty s.cache b).buf c).sector = (s.cache.buf c).sector := by grind [markDirty]
  have notGot := not_awaited inv member quiet
  refine ⟨?_, owners_perm inv.owners (fun c => (same c).1) fun q => .refl _, inv.logged, ?_⟩
  · exact coherent_markDirty inv.coherent notGot fun c pending => pending.imp_right .inr
  · intro q c dev sector awaits
    rw [(same c).2.1, (same c).2.2]
    exact inv.request q c dev sector awaits

theorem inv_install (inv : Inv extra s) (idle : (s.thread p).phase = .idle) (tail : Nat) :
    Inv extra (s.install p tail) := by
  unfold State.install
  dsimp only
  split
  · refine inv_move inv ?_ ?_ ?_ ?_ <;> simp [Thread.bufs, Phase.bufs, Cont.bufs, Phase.awaits,
      Phase.logs, idle]
  · refine inv_move (inv_setLog inv _) ?_ ?_ ?_ ?_ <;> simp [Thread.bufs, Phase.bufs, Cont.bufs,
      Phase.awaits, Phase.logs, idle, State.setLog]

theorem inv_logPut (inv : Inv (fun _ => False) s) {c l : Fin nbuf} {i : Nat}
    (phase : (s.thread p).phase = .logPut c i l) (done : run s p = some s') :
    Inv (fun _ => False) s' := by
  simp only [run, phase, Option.bind_eq_bind, Option.bind_eq_some_iff] at done
  obtain ⟨cache, written, s₂, released, last⟩ := done
  cases last
  have quiet : (s.thread p).phase.awaits = none := by rw [phase]; rfl
  have held : c ∈ (s.thread p).held := inv.logged p c (by rw [phase]; rfl)
  have wrote := inv_bwrite inv (p := p) (by simp [Thread.bufs, phase, Phase.bufs]) quiet written
  -- Between brelse(lbuf) and the assignment to its flags, `c` counts as changed.
  have marked : Inv (fun b => b = c) { s with cache := cache } :=
    inv_extra wrote fun _ no => no.elim
  have logs : ∀ b, (s.thread p).phase.logs = some b → b = c := by
    intro b logs
    rw [phase] at logs
    exact (Option.some.inj logs).symm
  obtain ⟨free, _, thread⟩ := inv_release marked (p := p)
    (by simp [Thread.bufs, phase, Phase.bufs]) quiet rfl logs rfl released
  exact inv_setLog (inv_markDirty free (p := p) (by simp [thread, Thread.bufs, held])
    (by rw [thread]; rfl)) _

theorem inv_headPut (inv : Inv (fun _ => False) s) {h : Fin nbuf} {final : Bool}
    (phase : (s.thread p).phase = .headPut final h) (done : run s p = some s') :
    Inv (fun _ => False) s' := by
  simp only [run, phase, Option.bind_eq_bind, Option.bind_eq_some_iff] at done
  obtain ⟨cache, written, s₂, released, last⟩ := done
  have quiet : (s.thread p).phase.awaits = none := by rw [phase]; rfl
  have wrote := inv_bwrite inv (p := p) (by simp [Thread.bufs, phase, Phase.bufs]) quiet written
  obtain ⟨free, _, thread⟩ := inv_release wrote (p := p) (by simp [Thread.bufs, phase, Phase.bufs])
    quiet rfl (by simp [phase, Phase.logs]) rfl released
  split at last
  · cases last
    exact inv_setLog free _
  · cases last
    exact inv_install free (by rw [thread]) 0

theorem inv_slotPut (inv : Inv (fun _ => False) s) {l d : Fin nbuf} {tail : Nat}
    (phase : (s.thread p).phase = .slotPut tail l d) (done : run s p = some s') :
    Inv (fun _ => False) s' := by
  simp only [run, phase, Option.bind_eq_bind, Option.bind_eq_some_iff] at done
  obtain ⟨cache, written, released⟩ := done
  have quiet : (s.thread p).phase.awaits = none := by rw [phase]; rfl
  have wrote := inv_bwrite inv (p := p) (by simp [Thread.bufs, phase, Phase.bufs]) quiet written
  exact (inv_release wrote (p := p) (by simp [Thread.bufs, phase, Phase.bufs]) quiet rfl
    (by simp [phase, Phase.logs]) rfl released).1

theorem inv_homePut (inv : Inv (fun _ => False) s) {d : Fin nbuf} {tail : Nat}
    (phase : (s.thread p).phase = .homePut tail d) (done : run s p = some s') :
    Inv (fun _ => False) s' := by
  simp only [run, phase, Option.bind_eq_bind, Option.bind_eq_some_iff] at done
  obtain ⟨s₂, released, last⟩ := done
  cases last
  obtain ⟨free, _, thread⟩ := inv_release inv (p := p) (by simp [Thread.bufs, phase, Phase.bufs])
    (by rw [phase]; rfl) rfl (by simp [phase, Phase.logs]) rfl released
  exact inv_install free (by rw [thread]) _

theorem inv_run (inv : Inv (fun _ => False) s) (done : run s p = some s') :
    Inv (fun _ => False) s' := by
  cases phase : (s.thread p).phase with
  | idle => simp [run, phase] at done
  | bget k dev sector chan =>
    cases chan with
    | none => exact inv_bget inv phase done
    | some b => simp [run, phase] at done
  | bread k dev sector b => exact (inv_bread inv phase done).1
  | logPut c i l => exact inv_logPut inv phase done
  | headPut final h => exact inv_headPut inv phase done
  | slotPut tail l d => exact inv_slotPut inv phase done
  | homePut tail d => exact inv_homePut inv phase done

theorem idle_of_isIdle {phase : Phase} (idle : isIdle phase = true) : phase = .idle := by
  cases phase <;> first | rfl | cases idle

/-- log_write: the holder has changed the data, and the buffer is pending from here on. -/
theorem inv_logWrite (inv : Inv (fun _ => False) s) (idle : (s.thread p).phase = .idle)
    (held : b ∈ (s.thread p).held) (data : Block) (log : Log) (i dev sector : Nat) :
    Inv (fun _ => False) ((s.setLog log).put p (modify s.cache b data)
      { s.thread p with phase := .bget (.log b i) dev sector none }) := by
  have quiet : (s.thread p).phase.awaits = none := by rw [idle]; rfl
  have member : b ∈ (s.thread p).bufs := List.mem_append_right _ held
  have moved : Inv (fun _ => False) ((s.setLog log).put p s.cache
      { s.thread p with phase := .bget (.log b i) dev sector none }) := by
    refine inv_move (inv_setLog inv log) ?_ ?_ ?_ ?_
    · simp [Thread.bufs, Phase.bufs, Cont.bufs, idle, State.setLog]
    · simp [Phase.awaits, idle, State.setLog]
    · simp [Phase.logs, idle, State.setLog]
    · intro c logs
      cases logs
      exact held
  have here : b ∈ (((s.setLog log).put p s.cache
      { s.thread p with phase := .bget (.log b i) dev sector none }).thread p).bufs := by
    simp [State.put, Thread.bufs, held]
  have same : ∀ c, ((modify s.cache b data).buf c).busy = (s.cache.buf c).busy ∧
      ((modify s.cache b data).buf c).dev = (s.cache.buf c).dev ∧
      ((modify s.cache b data).buf c).sector = (s.cache.buf c).sector := by grind [modify]
  refine ⟨?_, owners_perm moved.owners (fun c => (same c).1) fun q => .refl _, moved.logged, ?_⟩
  · refine coherent_modify moved.coherent (busy_of_mem moved here)
      (not_awaited moved here (by simp [State.put, Phase.awaits])) (.inr ⟨p, ?_⟩) data
    simp [State.put, Phase.logs]
  · intro q c dev' sector' awaits
    have before := moved.request q c dev' sector' awaits
    exact ⟨(same c).2.1.trans before.1, (same c).2.2.trans before.2⟩

theorem inv_step (inv : Inv (fun _ => False) s) (act : Act) (done : step s act = some s') :
    Inv (fun _ => False) s' := by
  cases act with
  | bread p dev sector =>
    simp only [step, Option.ite_none_right_eq_some, Option.some.injEq] at done
    obtain ⟨idle, rfl⟩ := done
    refine inv_move inv ?_ ?_ ?_ ?_ <;> simp [Thread.bufs, Phase.bufs, Cont.bufs, Phase.awaits,
      Phase.logs, idle_of_isIdle idle]
  | bwrite p b data =>
    simp only [step, Option.ite_none_right_eq_some] at done
    obtain ⟨⟨idle, held⟩, done⟩ := done
    obtain ⟨cache, written, rfl⟩ := Option.map_eq_some_iff.mp done
    exact inv_bwrite inv (List.mem_append_right _ held)
      (by rw [idle_of_isIdle idle]; rfl) written
  | logWrite p b data =>
    simp only [step, Option.ite_none_right_eq_some, Option.ite_none_left_eq_some,
      Option.some.injEq] at done
    obtain ⟨⟨idle, held⟩, _, _, rfl⟩ := done
    exact inv_logWrite inv (idle_of_isIdle idle) held _ _ _ _ _
  | brelse p b =>
    simp only [step, Option.ite_none_right_eq_some] at done
    obtain ⟨⟨idle, held⟩, done⟩ := done
    have phase := idle_of_isIdle idle
    refine (inv_release inv ?_ (by rw [phase]; rfl) rfl (by simp [phase, Phase.logs]) rfl done).1
    simpa [Thread.bufs, Phase.bufs, phase] using List.perm_cons_erase held
  | beginTrans p =>
    simp only [step, Option.ite_none_right_eq_some, Option.some.injEq] at done
    obtain ⟨_, rfl⟩ := done
    exact inv_setLog inv _
  | commitTrans p =>
    simp only [step, Option.ite_none_right_eq_some] at done
    obtain ⟨idle, done⟩ := done
    split at done
    · cases done
      refine inv_move inv ?_ ?_ ?_ ?_ <;> simp [Thread.bufs, Phase.bufs, Cont.bufs, Phase.awaits,
        Phase.logs, idle_of_isIdle idle]
    · cases done
      exact inv_setLog inv _
  | run p => exact inv_run inv done
  | kill p =>
    simp only [step] at done
    split at done
    · rename_i k dev sector chan phase
      cases done
      refine inv_move inv ?_ ?_ ?_ ?_
      · simp [Thread.bufs, Phase.bufs, phase]
      · simp [Phase.awaits, phase]
      · cases k <;> simp [Phase.logs, phase]
      · have before := inv.logged p
        rw [phase] at before
        cases k <;> simp [Phase.logs] at before ⊢ <;> exact before
    · cases done

theorem inv_start (disk : Nat → Block) (disksize : Nat) (log : Log) :
    Inv (fun _ => False) (start disk disksize log) where
  coherent := by
    refine coherent_weaken (coherent_binit 0 disk disksize) (fun _ no => no.elim) fun c => ?_
    refine ⟨fun no => no.elim, ?_⟩
    rintro ⟨p, request, awaits⟩
    cases awaits
  owners := by
    constructor <;> simp [start, binit, Thread.bufs, Phase.bufs]
  logged p c logs := by cases logs
  request p b dev sector awaits := by cases awaits

theorem inv_reached {disk : Nat → Block} {disksize : Nat} {log : Log} {acts : List Act}
    (run : exec step (start disk disksize log) acts = some s) : Inv (fun _ => False) s :=
  exec_preserves _ (fun _ act _ inv done => inv_step inv act done) (inv_start disk disksize log) run

/-- In every state reached the links form one ring of all buffers, no sector has two
buffers, and a busy buffer has one holder. -/
theorem cache_structure {disk : Nat → Block} {disksize : Nat} {log : Log} {acts : List Act}
    (reached : exec step (start disk disksize log) acts = some s) :
    (∃ order : List (Fin nbuf), order.Perm (List.finRange nbuf) ∧
      IsRing s.cache.links .head (order.map .buf)) ∧
    (∀ x, s.cache.links.prev (s.cache.links.next x) = x ∧
      s.cache.links.next (s.cache.links.prev x) = x) ∧
    (∀ b c, (s.cache.buf b).dev ≠ noDev → (s.cache.buf b).dev = (s.cache.buf c).dev →
      (s.cache.buf b).sector = (s.cache.buf c).sector → b = c) ∧
    (∀ b, (s.cache.buf b).busy = true → ∃! p, b ∈ (s.thread p).bufs) ∧
    ∀ p, (s.thread p).bufs.Nodup ∧ ∀ b ∈ (s.thread p).bufs, (s.cache.buf b).busy = true := by
  have inv := inv_reached reached
  obtain ⟨order, perm, ring⟩ := inv.coherent.listed
  refine ⟨⟨order, perm, ring⟩, fun x => ring_inverse ring x ?_, inv.coherent.unique, ?_, ?_⟩
  · cases x with
    | head => exact List.mem_cons_self
    | buf b =>
      exact List.mem_cons_of_mem _ (List.mem_map_of_mem (perm.mem_iff.mpr (List.mem_finRange b)))
  · intro b busy
    obtain ⟨p, member⟩ := (inv.owners.busy b).mp busy
    exact ⟨p, member, fun q other => inv.owners.one q p b other member⟩
  · exact fun p => ⟨inv.owners.once p, fun b member => busy_of_mem inv member⟩

/-- Every bread returns what its sector's buffer was left with, read from the disk only
where the disk has it. A sector whose disk block is stale has a buffer that bget cannot
recycle. -/
theorem bread_returns_left {disk : Nat → Block} {disksize : Nat} {log : Log} {acts : List Act}
    (reached : exec step (start disk disksize log) acts = some s) :
    (∀ p k dev sector b s', (s.thread p).phase = .bread k dev sector b →
      step s (.run p) = some s' →
      dev = 1 ∧ (s'.cache.buf b).dev = dev ∧ (s'.cache.buf b).sector = sector ∧
      (s'.cache.buf b).data = s.cache.left sector ∧ s'.cache.left = s.cache.left ∧
      ((s.cache.buf b).valid = false → s.cache.disk sector = s.cache.left sector)) ∧
    ∀ x, s.cache.disk x ≠ s.cache.left x → ∃ b, (s.cache.buf b).dev = 1 ∧
      (s.cache.buf b).sector = x ∧ ((s.cache.buf b).busy = true ∨ (s.cache.buf b).dirty = true) := by
  have inv := inv_reached reached
  refine ⟨?_, ?_⟩
  · intro p k dev sector b s' phase done
    obtain ⟨_, left, isDisk, isDev, isSector, data⟩ := inv_bread inv phase done
    refine ⟨isDisk, isDev, isSector, data, left, fun empty => ?_⟩
    have awaits : (s.thread p).phase.awaits = some (b, dev, sector) := by rw [phase]; rfl
    obtain ⟨rfl, rfl⟩ := inv.request p b dev sector awaits
    exact inv.coherent.unread b ⟨p, _, awaits⟩ isDisk empty
  · intro x stale
    by_contra none
    refine stale (inv.coherent.home x fun b cached => ?_)
    obtain ⟨isDisk, rfl⟩ := cached
    have idle : ¬((s.cache.buf b).busy = true ∨ (s.cache.buf b).dirty = true) :=
      fun either => none ⟨b, isDisk, rfl, either⟩
    simp only [not_or, Bool.not_eq_true] at idle
    have isValid := (inv.coherent.filled b isDisk).resolve_right (not_awaited_of_free inv idle.1)
    refine stale ?_
    rw [inv.coherent.clean b isValid idle.2 (not_pending_of_free inv (fun _ no => no) idle.1),
      inv.coherent.kept b isDisk idle.1]

end System

/-- bcache.buf[0], the first one that bget recycles. -/
def firstBuf : Fin nbuf := ⟨0, by decide⟩

/-- Process 0 logs a new sector 5 and releases it; process 1 gets it from bget. -/
def loggedRun : List Act :=
  [.beginTrans 0, .bread 0 1 5, .run 0, .run 0, .logWrite 0 firstBuf 7, .run 0, .run 0, .run 0,
    .brelse 0 firstBuf, .bread 1 1 5, .run 1]

def loggedStart : State := start (fun _ => 0) 30 ⟨20, 10, false, 0, fun _ => 0⟩

def loggedState : State := (exec step loggedStart loggedRun).get (by decide +kernel)

theorem logged_block_read_back : ∃ s', step loggedState (.run 1) = some s' ∧
    loggedState.cache.disk 5 = 0 ∧ (s'.cache.buf firstBuf).data = 7 := by
  have returns : (step loggedState (.run 1)).isSome = true := by decide +kernel
  obtain ⟨s', done⟩ := Option.isSome_iff_exists.mp returns
  have phase : (loggedState.thread 1).phase = .bread .client 1 5 firstBuf := by decide +kernel
  have result := (bread_returns_left (Option.some_get _).symm).1 1 _ _ _ _ s' phase done
  refine ⟨s', done, by decide +kernel, result.2.2.2.1.trans ?_⟩
  decide +kernel

theorem logged_structure : (loggedState.cache.buf firstBuf).busy = true ∧
    ∃! p, firstBuf ∈ (loggedState.thread p).bufs := by
  have busy : (loggedState.cache.buf firstBuf).busy = true := by decide +kernel
  exact ⟨busy, (cache_structure (s := loggedState) (Option.some_get _).symm).2.2.2.1 firstBuf busy⟩

end Xv6.BufferCache
