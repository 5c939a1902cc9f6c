import Xv6Vfs.Ext2.NameMap

/-! `ext2_readdir`, called again and again by one reader while others change the directory. `fileread` holds the lock
of the vnode during each call. -/
namespace Xv6Vfs.Ext2
open Xv6Vfs.Bytes Xv6Vfs.Vfs Xv6Vfs.Run Option

/-- `struct vdirent`, and the result of the call. -/
structure Vdirent where
  inum : Nat
  name : Name
  next : Nat

/-- The loop of `ext2_readdir`. The result takes `rec_len` from a buffer that has been released: it may hold another
block by then, which is `late`. -/
def readdirLoop (fs : Fs) (p : Priv) (late : Option Bytes) : (fuel off : Nat) → Option (Option Vdirent)
  | 0, _ => none
  | fuel + 1, off =>
    if off < iSize p.ino then
      let blk := (bmap p (off / bsize) false fs).1
      if blk = 0 then some none
      else
        let data := fs.disk blk
        let boff := off % bsize
        if deRecLen data boff = 0 then some none
        else if deInode data boff ≠ 0 then
          some (some ⟨deInode data boff % 65536, deName data boff, off + deRecLen (late.getD data) boff⟩)
        else readdirLoop fs p late fuel (off + deRecLen data boff)
    else some none

/-- `ext2_readdir` into a buffer that is there; absent where it returns -1. -/
def readdir (d : Nat) (late : Option Bytes) (off : Nat) (fs : Fs) : Option (Option Vdirent) :=
  let v := fs.vnodes d
  readdirLoop fs v.priv late (iSize v.priv.ino + 1) off

/-! ### One call -/

section Call

variable {x : Ino} {p : Nat}

/-- From one boundary to the next there is nothing else. -/
theorem Ino.Bound.next (h : x.Bound p) (hd : DirOk x) (hp : p < x.size) :
    0 < deRecLen (x.block (p / bsize)) (p % bsize) ∧
      x.Bound (p + deRecLen (x.block (p / bsize)) (p % bsize)) ∧
      ∀ q, p < q → q < p + deRecLen (x.block (p / bsize)) (p % bsize) → x.entry q = none := by
  have hk := (lt_size_iff hd).mp hp
  have ht := (hd.block _ hk).tiles
  have ho := h.2 hp
  have hb := ht.bounds ho
  have hnext := ht.next ho
  have hwhole := hd.whole
  generalize hr : deRecLen (x.block (p / bsize)) (p % bsize) = r at *
  refine ⟨hb.2.1, ⟨?_, fun hlt => ?_⟩, fun q hpq hqr => ?_⟩
  · rw [bsize] at *
    omega
  · cases hnext with
    | inl hend =>
      have hz : (p + r) % bsize = 0 := by
        rw [bsize] at *
        omega
      rw [hz]
      exact (hd.block _ ((lt_size_iff hd).mp hlt)).zero_mem
    | inr hmem =>
      have hlt' := (hd.block _ hk).slot_lt hmem
      have hdiv : (p + r) / bsize = p / bsize := by
        rw [bsize] at *
        omega
      have hmod : (p + r) % bsize = p % bsize + r := by
        rw [bsize] at *
        omega
      rwa [hdiv, hmod]
  · have hdiv : q / bsize = p / bsize := by
      rw [bsize] at *
      omega
    rw [Ino.entry, hdiv, if_pos hk]
    refine if_neg fun hm => ?_
    have hne : p % bsize ≠ q % bsize := by
      intro he
      rw [bsize] at *
      omega
    have hap := ht.apart ho hm.1 hne
    rw [bsize] at *
    omega

theorem entry_here (hd : DirOk x) (h : x.Bound p) (hp : p < x.size) : x.entry p =
    if deInode (x.block (p / bsize)) (p % bsize) = 0 then none
    else some (deInode (x.block (p / bsize)) (p % bsize), deName (x.block (p / bsize)) (p % bsize)) := by
  rw [Ino.entry, if_pos ((lt_size_iff hd).mp hp), entryAt]
  by_cases h0 : deInode (x.block (p / bsize)) (p % bsize) = 0
  · rw [if_pos h0, if_neg fun hm => hm.2 h0]
  · rw [if_neg h0, if_pos ⟨h.2 hp, h0⟩]

theorem entry_behind (hd : DirOk x) (hp : x.size ≤ p) : x.entry p = none := by
  rw [Ino.entry, if_neg]
  rw [← lt_size_iff hd]
  omega

/-- The loop stops at the first entry from `off` on. -/
theorem readdirLoop_spec {fs : Fs} {pr : Priv} (hs : Shows fs pr.ino x) (hd : DirOk x) (fuel : Nat)
    {off : Nat} (hoff : x.Bound off) (hf : x.size < off + fuel) :
    (∃ p e next, readdirLoop fs pr none fuel off = some (some ⟨e.1 % 65536, e.2, next⟩) ∧
      FindsNext x.entry off p e next ∧ x.Bound next) ∨
    readdirLoop fs pr none fuel off = some none ∧ ∀ q, off ≤ q → x.entry q = none := by
  induction fuel generalizing off with
  | zero =>
    have hle := hoff.1
    omega
  | succ fuel ih =>
    by_cases hlt : off < x.size
    · rcases hoff.next hd hlt with ⟨hpos, hnext, hbetween⟩
      have hentry := entry_here hd hoff hlt
      rcases hs.block _ (hd.there _ ((lt_size_iff hd).mp hlt)) with ⟨h0, hdata⟩
      rw [readdirLoop, if_pos (by rw [hs.size]; exact hlt)]
      simp only [bmap_false, h0, if_false, hdata, getD_none]
      rw [if_neg (by omega)]
      generalize deRecLen (x.block (off / bsize)) (off % bsize) = r at *
      by_cases hin : deInode (x.block (off / bsize)) (off % bsize) = 0
      · rw [if_neg (not_not.mpr hin)]
        rw [if_pos hin] at hentry
        have hskip : ∀ q, off ≤ q → q < off + r → x.entry q = none := by
          intro q h1 h2
          by_cases hq : q = off
          · rw [hq, hentry]
          · exact hbetween q (by omega) h2
        cases ih hnext (by omega) with
        | inl hhit =>
          rcases hhit with ⟨p, e, next, hloop, hfinds, hbound⟩
          have hle := hfinds.le
          refine .inl ⟨p, e, next, hloop, ⟨by omega, hfinds.here, fun q h1 h2 => ?_, hfinds.lt, hfinds.behind⟩, hbound⟩
          by_cases hq : q < off + r
          · exact hskip q h1 hq
          · exact hfinds.skipped q (by omega) h2
        | inr hnone =>
          refine .inr ⟨hnone.1, fun q h1 => ?_⟩
          by_cases hq : q < off + r
          · exact hskip q h1 hq
          · exact hnone.2 q (by omega)
      · rw [if_pos hin]
        rw [if_neg hin] at hentry
        exact .inl ⟨off, _, off + r, rfl, ⟨Nat.le_refl _, hentry, fun q h1 h2 => by omega, by omega, hbetween⟩, hnext⟩
    · rw [readdirLoop, if_neg (by rw [hs.size]; exact hlt)]
      exact .inr ⟨rfl, fun q hq => entry_behind hd (by omega)⟩

end Call

/-! ### A reader among others -/

/-- The directory with its book, where the reader is, what it has been given, and whether it has been told the end. -/
structure Watch where
  book : Book
  pos : Nat
  got : List (Nat × Name)
  ended : Bool

inductive WatchOp where
  | change (op : DirOp)
  | read (late : Option Bytes)

def WatchOp.isRead : WatchOp → Bool
  | .change _ => false
  | .read _ => true

/-- The reader goes on where the call before told it to, until there is nothing more. -/
def WatchOp.exec (d : Nat) : WatchOp → Watch → Option Watch
  | .change op, s => (op.exec d s.book).map fun book => { s with book := book }
  | .read late, s =>
    if s.ended then some s
    else (readdir d late s.pos s.book.fs).map fun r =>
      match r with
      | some e => { s with pos := e.next, got := s.got ++ [(e.inum, e.name)] }
      | none => { s with ended := true }

def WatchOp.Proper (s : Watch) : WatchOp → Prop
  | .change op => op.Proper s.book
  | .read _ => True

instance (s : Watch) : (op : WatchOp) → Decidable (op.Proper s)
  | .change op => inferInstanceAs (Decidable (op.Proper s.book))
  | .read _ => inferInstanceAs (Decidable True)

/-- No device takes blocks along that are not its own, and a buffer is not used for another block before `rec_len` is
taken from it. -/
def WatchOp.Calm (d : Nat) (s : Watch) : WatchOp → Prop
  | .change op => op.Spares d s.book
  | .read late => late = none

instance (d : Nat) (s : Watch) : (op : WatchOp) → Decidable (op.Calm d s)
  | .change op => inferInstanceAs (Decidable (op.Spares d s.book))
  | .read late => inferInstanceAs (Decidable (late = none))

/-- The offset is where an entry begins, or the end of the directory. -/
def AtEntry (d : Nat) (fs : Fs) (pos : Nat) : Prop :=
  pos ≤ iSize (fs.vnodes d).priv.ino ∧ (pos < iSize (fs.vnodes d).priv.ino →
    pos % bsize ∈ slots (fs.disk (lbnBlock fs (fs.vnodes d).priv.ino (pos / bsize))))

instance (d : Nat) (fs : Fs) (pos : Nat) : Decidable (AtEntry d fs pos) := inferInstanceAs (Decidable (_ ∧ (_ → _)))

/-- The bytes of a directory with all the blocks that an inode can have. -/
def dirLimit : Nat := (ndirect + nindirect) * bsize

/-- The state of the run so far. -/
structure Watching (n d : Nat) (s : Watch) (A : Abs) (x : Ino) (v : Vn) : Prop where
  booked : Booked n d s.book A x v
  bound : x.Bound s.pos
  length : s.got.length ≤ s.pos

/-- What the reader knows of an entry that is there. -/
structure Follows (s : Watch) (x : Ino) (i : Nat) (name : Name) : Prop where
  seen : Seen (· % 65536) x.entry s.pos s.got i name
  all : s.ended = true → (s.got.filter fun e => e.2 = name) = [(i % 65536, name)]

section Watch

variable {n d : Nat} {s s' : Watch} {A : Abs} {x : Ino} {v : Vn} {i : Nat} {name : Name}

section

variable (h : Watching n d s A x v)
include h

theorem Watching.shows : Shows s.book.fs (s.book.fs.vnodes d).priv.ino x := by
  have hshows := (h.booked.rep.own h.booked.here h.booked.node (by rw [h.booked.dir]; decide)).2
  rwa [h.booked.slot] at hshows

theorem Watching.dirOk : DirOk x := h.booked.rep.dirOk h.booked.here h.booked.dir

theorem Watching.atEntry : AtEntry d s.book.fs s.pos := by
  have hs := h.shows
  refine ⟨by rw [hs.size]; exact h.bound.1, fun hlt => ?_⟩
  rw [hs.size] at hlt
  rw [(hs.block _ (h.dirOk.there _ ((lt_size_iff h.dirOk).mp hlt))).2]
  exact h.bound.2 hlt

theorem Watching.limit : x.size ≤ dirLimit := by
  have hd := h.dirOk
  have hs := h.shows
  by_contra hgt
  have hk : ndirect + nindirect < x.size / bsize := by
    have hwhole := hd.whole
    rw [dirLimit, bsize] at *
    omega
  have hlt := lbnBlock_lt (hs.block _ (hd.there _ hk)).1
  omega

theorem Watching.change (op : DirOp) (hproper : op.Proper s.book) (hspares : op.Spares d s.book) :
    ∃ s' A' x' v', WatchOp.exec d (.change op) s = some s' ∧ Watching n d s' A' x' v' ∧
      (Follows s x i name → s'.book.names name = some i → Follows s' x' i name) := by
  rcases h.booked.step op hproper hspares with ⟨b, A', x', v', hexec, hb, hsteady⟩
  refine ⟨{ s with book := b }, A', x', v', by rw [WatchOp.exec, hexec]; rfl,
    ⟨hb, hsteady.finer.bound _ h.bound, h.length⟩, fun hf hstill => ⟨?_, hf.all⟩⟩
  exact hf.seen.change fun p hp => hsteady.kept p i name hp hstill

theorem Watching.read : ∃ s', WatchOp.exec d (.read none) s = some s' ∧ Watching n d s' A x v ∧
      (Follows s x i name → Follows s' x i name) := by
  by_cases hend : s.ended = true
  · exact ⟨s, if_pos hend, h, id⟩
  · rw [WatchOp.exec, if_neg hend, readdir]
    cases @readdirLoop_spec x s.book.fs (s.book.fs.vnodes d).priv h.shows h.dirOk
      (iSize (s.book.fs.vnodes d).priv.ino + 1) s.pos h.bound (by rw [h.shows.size]; omega) with
    | inl hhit =>
      rcases hhit with ⟨p, e, next, hloop, hfinds, hbound⟩
      have hle := hfinds.le
      have hlt := hfinds.lt
      have hlen := h.length
      refine ⟨{ s with pos := next, got := s.got ++ [(e.1 % 65536, e.2)] }, by rw [hloop]; rfl,
        ⟨h.booked, hbound, ?_⟩, fun hf => ⟨hf.seen.read h.booked.table hfinds, fun hended => absurd hended hend⟩⟩
      have hnext : s.got.length + 1 ≤ next := by omega
      rwa [List.length_append]
    | inr hnone =>
      refine ⟨{ s with ended := true }, by rw [hnone.1]; rfl, ⟨h.booked, h.bound, h.length⟩,
        fun hf => ⟨hf.seen, fun _ => ?_⟩⟩
      cases hf.seen with
      | intro p hp =>
        by_cases hpos : p < s.pos
        · rw [hp.2, if_pos hpos]
        · have hfree := hnone.2 p (by omega)
          rw [hp.1] at hfree
          cases hfree

theorem Watching.step (op : WatchOp) (hproper : op.Proper s) (hcalm : op.Calm d s) :
    ∃ s' A' x' v', op.exec d s = some s' ∧ Watching n d s' A' x' v' ∧
      (Follows s x i name → s'.book.names name = some i → Follows s' x' i name) := by
  cases op with
  | change op => exact h.change op hproper hcalm
  | read late =>
    have hlate : late = none := hcalm
    rw [hlate]
    rcases @Watching.read n d s A x v i name h with ⟨s', hexec, h', hf⟩
    exact ⟨s', A, x, v, hexec, h', fun hs _ => hf hs⟩

end

/-- The end is told once, and up to there every call gives an entry. -/
theorem read_count {t : Watch} (ops : List WatchOp) (hrun : run (WatchOp.exec d) ops s = some t) :
    (s.ended = true → t.ended = true) ∧ (t.ended = true ∨ s.got.length + ops.countP WatchOp.isRead ≤ t.got.length) := by
  induction ops generalizing s with
  | nil =>
    cases hrun
    exact ⟨id, .inr (by simp)⟩
  | cons op ops ih =>
    rcases run_cons hrun with ⟨s', hexec, hrest⟩
    rcases ih hrest with ⟨hend, hcount⟩
    cases op with
    | change op =>
      rcases map_eq_some_iff.mp hexec with ⟨b, -, rfl⟩
      exact ⟨hend, hcount⟩
    | read late =>
      rw [WatchOp.exec] at hexec
      split at hexec
      · rename_i hended
        cases hexec
        exact ⟨hend, .inl (hend hended)⟩
      · rename_i hended
        refine ⟨fun h => absurd h hended, ?_⟩
        rcases map_eq_some_iff.mp hexec with ⟨r, -, hr⟩
        cases r with
        | none =>
          subst hr
          exact .inl (hend rfl)
        | some e =>
          subst hr
          refine hcount.imp id fun hle => ?_
          simp only [List.length_append, List.length_singleton, List.countP_cons, WatchOp.isRead, if_true] at hle ⊢
          omega

end Watch

/-- What a reader gets that starts at the beginning: an entry that is there in every state of the run is returned at
most once, and once when the end is told. -/
def ReturnedOnce (d : Nat) (ops : List WatchOp) (s t : Watch) : Prop :=
  ∀ name i, Meets (WatchOp.exec d) (fun u _ => u.book.names name = some i) ops s → t.book.names name = some i →
    (t.got.filter fun e => e.2 = name).length ≤ 1 ∧
      (t.ended = true → (t.got.filter fun e => e.2 = name) = [(i % 65536, name)])

/-- A reader that goes through a directory which others change: every call ends, its offset is never inside an entry,
it comes to the end, and it gets every entry that stays exactly once. -/
theorem readdir_stable {fs : Fs} {A : Abs} {n : Nat} {x : Ino} {v : Vn}
    (hrep : Rep fs A) (hx : A n = some x) (hv : x.vn = some v) (hdir : x.kind = .dir)
    (hformed : ∀ k < x.size / bsize, WellFormed (x.block k)) {M : Name → Option Nat} (hM : Indexes x.entry M)
    {ops : List WatchOp} (hproper : Meets (WatchOp.exec v.slot) WatchOp.Proper ops ⟨⟨fs, M⟩, 0, [], false⟩)
    (hcalm : Meets (WatchOp.exec v.slot) (WatchOp.Calm v.slot) ops ⟨⟨fs, M⟩, 0, [], false⟩) :
    ∃ t, run (WatchOp.exec v.slot) ops ⟨⟨fs, M⟩, 0, [], false⟩ = some t ∧ AtEntry v.slot t.book.fs t.pos ∧
      (dirLimit < ops.countP WatchOp.isRead → t.ended = true) ∧
      ReturnedOnce v.slot ops ⟨⟨fs, M⟩, 0, [], false⟩ t := by
  have hd := hrep.dirOk hx hdir
  have hbooked : Booked n v.slot ⟨fs, M⟩ A x v :=
    ⟨hrep, hx, hv, rfl, hdir, fun k hk => (hformed k hk).aligned, hM⟩
  have hstart : x.Bound 0 := by
    refine ⟨Nat.zero_le _, fun hlt => ?_⟩
    have hk := (lt_size_iff hd).mp hlt
    rw [Nat.zero_mod, Nat.zero_div] at *
    exact (hd.block 0 hk).zero_mem
  have h0 : Watching n v.slot ⟨⟨fs, M⟩, 0, [], false⟩ A x v := ⟨hbooked, hstart, Nat.le_refl _⟩
  rcases run_total (fun s => ∃ A x v', Watching n v.slot s A x v') (fun s op hs hok => by
    rcases hs with ⟨A, x, v', hs⟩
    rcases @Watching.step n v.slot s A x v' 0 [] hs op hok.1 hok.2 with ⟨s', A', x', v'', hexec, hs', -⟩
    exact ⟨s', hexec, A', x', v'', hs'⟩) ⟨A, x, v, h0⟩ (hproper.and hcalm) with ⟨t, hrun, A', x', v', ht⟩
  refine ⟨t, hrun, ht.atEntry, fun hmany => ?_, fun name i hstays hstill => ?_⟩
  · cases (read_count ops hrun).2 with
    | inl hended => exact hended
    | inr hcount =>
      have hlen := ht.length
      have hpos := ht.bound.1
      have hlim := ht.limit
      rw [List.length_nil] at hcount
      omega
  · have hinv := run_invariant
      (fun s => ∃ A x v', Watching n v.slot s A x v' ∧ (s.book.names name = some i → Follows s x i name))
      (fun s op s' hs hok hexec => by
        rcases hs with ⟨A, x, v', hs, hf⟩
        rcases @Watching.step n v.slot s A x v' i name hs op hok.1.1 hok.1.2 with ⟨s1, A', x', v'', hexec1, hs1, hf1⟩
        rw [hexec] at hexec1
        cases hexec1
        exact ⟨A', x', v'', hs1, hf1 (hf hok.2)⟩)
      ⟨A, x, v, h0, fun hname => ⟨by
        cases hM.found hname with
        | intro p hp => exact ⟨p, hp, by rw [if_neg (Nat.not_lt_zero p)]; rfl⟩, fun he => by cases he⟩⟩
      ((hproper.and hcalm).and hstays) hrun
    rcases hinv with ⟨A2, x2, v2, -, hf⟩
    have hfollows := hf hstill
    refine ⟨?_, hfollows.all⟩
    cases hfollows.seen with
    | intro p hp =>
      rw [hp.2]
      split
      · exact Nat.le_refl 1
      · exact Nat.zero_le 1

/-- The reader is given the device; then the device goes, and the directory grows. -/
def readAndGrow : List WatchOp :=
  [.change (.add (longName 97) 4 ftReg), .change (.add (longName 98) 4 ftReg), .change (.add (longName 99) 4 ftReg),
    .read none, .change (.remove 0 devName), .change (.add (longName 100) 4 ftReg), .read none, .read none]

theorem readAndGrow_proper (big : Bool) :
    Meets (WatchOp.exec 0) WatchOp.Proper readAndGrow ⟨⟨smallFs big, smallNames⟩, 0, [], false⟩ :=
  Meets.of_check (fun _ _ h => of_decide_eq_true h)
    (show check (WatchOp.exec 0) (fun s op => decide (op.Proper s)) readAndGrow
      ⟨⟨smallFs big, smallNames⟩, 0, [], false⟩ = true by decide +kernel +revert)

theorem readAndGrow_calm :
    Meets (WatchOp.exec 0) (WatchOp.Calm 0) readAndGrow ⟨⟨smallFs false, smallNames⟩, 0, [], false⟩ :=
  Meets.of_check (fun _ _ h => of_decide_eq_true h)
    (show check (WatchOp.exec 0) (fun s op => decide (op.Calm 0 s)) readAndGrow
      ⟨⟨smallFs false, smallNames⟩, 0, [], false⟩ = true by decide +kernel)

/-- The number of the device is 0. -/
theorem smallFs_readdir_stable : ∃ t, run (WatchOp.exec 0) readAndGrow ⟨⟨smallFs false, smallNames⟩, 0, [], false⟩ =
      some t ∧ AtEntry 0 t.book.fs t.pos ∧ (dirLimit < readAndGrow.countP WatchOp.isRead → t.ended = true) ∧
      ReturnedOnce 0 readAndGrow ⟨⟨smallFs false, smallNames⟩, 0, [], false⟩ t :=
  @readdir_stable (smallFs false) smallAbs 2 smallDirIno ⟨0, 1, 2, false, false⟩ (smallFs_rep false)
    rfl rfl rfl smallDirIno_formed smallNames smallNames_indexes readAndGrow (readAndGrow_proper false)
    readAndGrow_calm

/-- The number of the device is that of the block of the directory, which is free with the device and taken when the
directory grows: the reader is in the middle of an entry, and of the names that stay it gets none. Without a device,
the same may happen in one call, if the buffer is used for another block. -/
theorem reader_inside_entry : Rep (smallFs true) smallAbs ∧ smallAbs 2 = some smallDirIno ∧
    (∀ k < smallDirIno.size / bsize, WellFormed (smallDirIno.block k)) ∧ Indexes smallDirIno.entry smallNames ∧
    Meets (WatchOp.exec 0) WatchOp.Proper readAndGrow ⟨⟨smallFs true, smallNames⟩, 0, [], false⟩ ∧
    (∃ t, run (WatchOp.exec 0) readAndGrow ⟨⟨smallFs true, smallNames⟩, 0, [], false⟩ = some t ∧
      ¬ AtEntry 0 t.book.fs t.pos ∧ t.ended = true ∧ t.got = [(3, devName), (25700, List.replicate 100 100)]) ∧
    ∃ t, run (WatchOp.exec 0) [.read (some fun _ => 1)] ⟨⟨smallFs false, smallNames⟩, 0, [], false⟩ = some t ∧
      ¬ AtEntry 0 t.book.fs t.pos := by
  have hrun : ((run (WatchOp.exec 0) readAndGrow ⟨⟨smallFs true, smallNames⟩, 0, [], false⟩).map fun t =>
      (decide (AtEntry 0 t.book.fs t.pos), t.ended, t.got)) =
        some (false, true, [(3, devName), (25700, List.replicate 100 100)]) := by
    decide +kernel
  have hlate : ((run (WatchOp.exec 0) [.read (some fun _ => 1)] ⟨⟨smallFs false, smallNames⟩, 0, [], false⟩).map
      fun t => decide (AtEntry 0 t.book.fs t.pos)) = some false := by
    decide +kernel
  rcases map_eq_some_iff.mp hrun with ⟨t, ht, he⟩
  rcases map_eq_some_iff.mp hlate with ⟨u, hu, hf⟩
  exact ⟨smallFs_rep true, rfl, smallDirIno_formed, smallNames_indexes, readAndGrow_proper true,
    ⟨t, ht, of_decide_eq_false (congrArg Prod.fst he), congrArg (fun r => r.2.1) he, congrArg (fun r => r.2.2) he⟩,
    u, hu, of_decide_eq_false hf⟩

end Xv6Vfs.Ext2
