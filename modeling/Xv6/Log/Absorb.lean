import Xv6.BioLru
import Xv6.Log.Op

/-!
# Log absorption (`log_write`, `write_log` and `install_trans` in `kernel/log.c`)

Inside a transaction the file system reads blocks with `bread`, writes their data, passes the
buffers to `log_write` and releases them. `log_write(b)` looks for `b->blockno` among the
header's entries `lh.block[0..lh.n)`; the loop's index is the entry it found, or `lh.n`, and
`lh.block[i] = b->blockno` either rewrites the entry with itself or fills the next slot. Only
the latter pins the buffer, so that the cache cannot evict it before the commit, and counts it.

`Txn` is the log header with the buffer cache under it, on the one disk `dev` (`log.dev`);
the ghost state records the pins `log_write` made and the block numbers passed to it since the
last commit. `commit` runs `write_log`, which copies each entry's cached block into the log, and
`install_trans(0)`, which copies it home and unpins its buffer; both loops read every block
through `bread`.

* `Txn.logWrite_log`: the header part of `log_write` is `Log.logWrite` of `Xv6.Log.Op`;
* `Txn.Inv`: the entries are distinct and are the blocks passed to `log_write`; each is cached
  in a valid buffer that `log_write` pinned once, and no other buffer is pinned;
  `Txn.Inv.step`, `Txn.Inv.run`: every call of the transaction keeps it;
* `Txn.run_written`: the ghost list is `Txn.passed`, the blocks the calls themselves pass to
  `log_write`;
* `Txn.writeLog_spec`: `write_log` copies the cached data of each entry, once and in order;
  `Txn.installTrans_spec`: `install_trans` unpins each entry's buffer once; `Txn.Inv.commit_spec`:
  after the commit no buffer is pinned.
-/

namespace Xv6

variable {α : Type*}

namespace Bcache

theorem bpin_buf (c : Bcache α) (b : Fin NBUF) :
    (c.bpin b).buf = Function.update c.buf b { c.buf b with refcnt := (c.buf b).refcnt + 1 } := rfl

/-- `bpin` changes no buffer's block. -/
theorem ident_bpin (c : Bcache α) (b : Fin NBUF) : (c.bpin b).ident = c.ident := by
  rw [bpin, ident_setBuf]
  exact Function.update_eq_self b c.ident

end Bcache

namespace BioSys

variable {s s' : BioSys α}

/-- `bread(dev, blockno)`, with the buffer it returns. -/
def breadGot (s : BioSys α) (disk : ℕ → ℕ → α) (dev blockno : ℕ) : Option (BioSys α × Fin NBUF) :=
  (s.cache.bread disk dev blockno).map fun r => (s.got r, r.2)

/-- Buffer `b` caches block `blockno` of `dev`, valid, with the one pin of `log_write`. -/
structure Pinned (s : BioSys α) (dev : ℕ) (b : Fin NBUF) (blockno : ℕ) : Prop where
  used : s.used b = true
  ident : s.cache.ident b = (dev, blockno)
  pins : s.pins b = 1
  valid : (s.cache.buf b).valid = true

theorem Pinned.refcnt_pos {dev blockno : ℕ} {b : Fin NBUF} (hs : s.Inv)
    (h : s.Pinned dev b blockno) : 0 < (s.cache.buf b).refcnt := by
  rw [hs.refcnt_eq b, h.pins]
  omega

/-- A call that keeps what `b` caches and its pins keeps it pinned. -/
theorem Pinned.of_keeps {dev blockno : ℕ} {b : Fin NBUF} (h : s.Pinned dev b blockno)
    (hk : (s.cache.buf b).Keeps (s'.cache.buf b)) (hused : s.used b = true → s'.used b = true)
    (hpins : s'.pins b = s.pins b) : s'.Pinned dev b blockno where
  used := hused h.used
  ident := by
    rw [← h.ident]
    exact Prod.ext hk.dev_eq hk.blockno_eq
  pins := hpins.trans h.pins
  valid := (hk.data_eq h.valid).1

/-- `bread` returns a valid buffer holding the block it was asked for. -/
theorem Inv.bread_ident (hs : s.Inv) {disk : ℕ → ℕ → α} {dev blockno : ℕ} {c' : Bcache α}
    {b : Fin NBUF} (h : s.cache.bread disk dev blockno = some (c', b)) :
    c'.ident b = (dev, blockno) ∧ (c'.buf b).valid = true := by
  obtain ⟨c₁, hget, x, hdev, hblk, -, -, rfl⟩ := Bcache.bread_cases h
  have hid : c₁.ident b = (dev, blockno) := by
    rcases Bcache.bget_cases hs.next_eq hs.prev_eq hs.nodup hget with ⟨hf, rfl⟩ | ⟨-, -, rfl⟩
    · rw [Bcache.ident_setBuf, Function.update_self]
      exact (Bcache.holds_eq_true _).1 (List.find?_some hf)
    · rw [Bcache.ident_setBuf, Function.update_self]
  refine ⟨?_, ?_⟩
  · rw [Bcache.ident_setBuf, Function.update_self, hdev, hblk]
    exact hid
  · -- `bread` reads an invalid buffer from the disk and marks it valid
    rw [Bcache.bread] at h
    obtain ⟨⟨c₂, b₂⟩, hget₂, hr⟩ := Option.map_eq_some_iff.1 h
    rw [hget] at hget₂
    obtain ⟨rfl, rfl⟩ := Prod.mk.inj (Option.some.inj hget₂)
    by_cases hv : (c₁.buf b).valid
    · simp only [hv, if_true, Prod.mk.injEq] at hr
      rw [← hr.1]
      exact hv
    · simp only [hv, Bool.false_eq_true, if_false, Prod.mk.injEq] at hr
      rw [← hr.1, Bcache.setBuf_buf, Function.update_self]

theorem got_used {r : Bcache α × Fin NBUF} {b : Fin NBUF} (h : s.used b = true) :
    (s.got r).used b = true := by
  by_cases hb : b = r.2
  · rw [hb]
    exact Function.update_self ..
  · show Function.update s.used r.2 true b = true
    rw [Function.update_of_ne hb]
    exact h

section Pinned

variable {dev blockno : ℕ} {b : Fin NBUF}

theorem Pinned.bread (hs : s.Inv) (hp : s.Pinned dev b blockno) {disk : ℕ → ℕ → α}
    {dev' blockno' : ℕ} {r : Bcache α × Fin NBUF} (h : s.cache.bread disk dev' blockno' = some r) :
    (s.got r).Pinned dev b blockno :=
  hp.of_keeps (hs.keeps_bread h (hp.refcnt_pos hs)) got_used rfl

theorem Pinned.write (hp : s.Pinned dev b blockno) (b₀ : Fin NBUF) (data : α) :
    ({ s with cache := s.cache.setBuf b₀ { s.cache.buf b₀ with data := data } } : BioSys α).Pinned
      dev b blockno where
  used := hp.used
  ident := by
    -- the data is not part of what the buffer caches
    rw [Bcache.ident_setBuf, ← hp.ident]
    exact congrFun (Function.update_eq_self b₀ s.cache.ident) b
  pins := hp.pins
  valid := by
    by_cases hb : b = b₀
    · subst hb
      simpa using hp.valid
    · simpa [Function.update_of_ne hb] using hp.valid

theorem Pinned.brelse (hp : s.Pinned dev b blockno) (b₀ : Fin NBUF) (held : Fin NBUF → ℕ)
    (lru : List (Fin NBUF)) :
    ({ s with cache := s.cache.brelse b₀, held := held, lru := lru } : BioSys α).Pinned
      dev b blockno :=
  hp.of_keeps (by
    show (s.cache.buf b).Keeps ((s.cache.brelse b₀).buf b)
    rw [Bcache.brelse_buf]
    exact Buf.keeps_update fun _ => keeps_refcnt _ _) id rfl

/-- `bpin` of another buffer keeps `b` pinned. -/
theorem Pinned.bpin (hp : s.Pinned dev b blockno) {b₀ : Fin NBUF} (hb : b ≠ b₀) :
    ({ s with cache := s.cache.bpin b₀, pins := Function.update s.pins b₀ (s.pins b₀ + 1) } :
      BioSys α).Pinned dev b blockno :=
  hp.of_keeps (Buf.keeps_update fun _ => keeps_refcnt _ _) id (Function.update_of_ne hb _ _)


/-- `bunpin` of another buffer keeps `b` pinned. -/
theorem Pinned.bunpin (hp : s.Pinned dev b blockno) {b₀ : Fin NBUF} (hb : b ≠ b₀) :
    ({ s with cache := s.cache.bunpin b₀, pins := Function.update s.pins b₀ (s.pins b₀ - 1) } :
      BioSys α).Pinned dev b blockno :=
  hp.of_keeps (Buf.keeps_update fun _ => keeps_refcnt _ _) id (Function.update_of_ne hb _ _)

/-- A pinned buffer is the only one carrying its block, so `bread` of the block hits it, and
finds it valid. -/
theorem Inv.bread_pinned (hs : s.Inv) (hp : s.Pinned dev b blockno) (hdev : dev ≠ 0)
    (disk : ℕ → ℕ → α) :
    s.cache.bread disk dev blockno =
      some (s.cache.setBuf b { s.cache.buf b with refcnt := (s.cache.buf b).refcnt + 1 }, b) := by
  have hf : s.lru.find? (s.cache.holds dev blockno) = some b :=
    LinkedCycle.find?_eq_some_of_unique (hs.mem b) ((Bcache.holds_eq_true _).2 hp.ident)
      fun y _ hy => hs.carrier_unique (by simp [hdev]) ((Bcache.holds_eq_true _).1 hy) hp.ident
  rw [Bcache.bread, hs.bget_hit hf, Option.map_some]
  simp [hp.valid]

end Pinned

theorem breadGot_eq {disk : ℕ → ℕ → α} {dev blockno : ℕ} {b : Fin NBUF}
    (h : s.breadGot disk dev blockno = some (s', b)) :
    ∃ c', s.cache.bread disk dev blockno = some (c', b) ∧ s' = s.got (c', b) := by
  obtain ⟨⟨c', b'⟩, hr, he⟩ := Option.map_eq_some_iff.1 h
  obtain ⟨rfl, rfl⟩ := Prod.mk.inj he
  exact ⟨c', hr, rfl⟩

/-- Each block `y` of `ys` is cached in the buffer `c y`, pinned, with the data `D y`. -/
def CachedIn (s : BioSys α) (dev : ℕ) (c : ℕ → Fin NBUF) (D : ℕ → α) (ys : List ℕ) : Prop :=
  ∀ y ∈ ys, s.Pinned dev (c y) y ∧ (s.cache.buf (c y)).data = D y

section CachedIn

variable {dev : ℕ} {c : ℕ → Fin NBUF} {D : ℕ → α} {ys : List ℕ}

theorem CachedIn.bread (hc : s.CachedIn dev c D ys) (hs : s.Inv) {disk : ℕ → ℕ → α}
    {dev' blockno' : ℕ} {r : Bcache α × Fin NBUF} (h : s.cache.bread disk dev' blockno' = some r) :
    (s.got r).CachedIn dev c D ys := fun y hy =>
  have hp := (hc y hy).1
  ⟨hp.bread hs h, (((hs.keeps_bread h (hp.refcnt_pos hs)).data_eq hp.valid).2).trans (hc y hy).2⟩

theorem CachedIn.write (hc : s.CachedIn dev c D ys) {b : Fin NBUF} (hb : ∀ y ∈ ys, c y ≠ b)
    (data : α) :
    ({ s with cache := s.cache.setBuf b { s.cache.buf b with data := data } } : BioSys α).CachedIn
      dev c D ys := fun y hy =>
  ⟨(hc y hy).1.write b data, by simpa [Function.update_of_ne (hb y hy)] using (hc y hy).2⟩

theorem CachedIn.brelse (hc : s.CachedIn dev c D ys) (b : Fin NBUF) (held : Fin NBUF → ℕ)
    (lru : List (Fin NBUF)) :
    ({ s with cache := s.cache.brelse b, held := held, lru := lru } : BioSys α).CachedIn
      dev c D ys := fun y hy =>
  ⟨(hc y hy).1.brelse b held lru, by
    show ((s.cache.brelse b).buf (c y)).data = D y
    rw [Bcache.brelse_buf, Function.update_apply]
    split_ifs with he
    · rw [← he]
      exact (hc y hy).2
    · exact (hc y hy).2⟩

theorem CachedIn.bunpin (hc : s.CachedIn dev c D ys) {b : Fin NBUF} (hb : ∀ y ∈ ys, c y ≠ b) :
    ({ s with cache := s.cache.bunpin b, pins := Function.update s.pins b (s.pins b - 1) } :
      BioSys α).CachedIn dev c D ys := fun y hy =>
  ⟨(hc y hy).1.bunpin (hb y hy), by
    show ((s.cache.bunpin b).buf (c y)).data = D y
    rw [Bcache.bunpin, Bcache.setBuf_buf, Function.update_of_ne (hb y hy)]
    exact (hc y hy).2⟩

theorem CachedIn.mono (hc : s.CachedIn dev c D ys) {zs : List ℕ} (hz : ∀ y ∈ zs, y ∈ ys) :
    s.CachedIn dev c D zs := fun y hy => hc y (hz y hy)

/-- Two blocks cached in one buffer are one block. -/
theorem CachedIn.eq_of_buf (hc : s.CachedIn dev c D ys) {x y : ℕ} (hx : x ∈ ys) (hy : y ∈ ys)
    (he : c x = c y) : x = y := by
  have h := (hc x hx).1.ident
  rw [he, (hc y hy).1.ident] at h
  exact (Prod.mk.inj h).2.symm

end CachedIn

/-- A buffer the caller holds is referenced. -/
theorem Inv.refcnt_pos_of_held (hs : s.Inv) {b : Fin NBUF} (h : 0 < s.held b) :
    0 < (s.cache.buf b).refcnt := by
  rw [hs.refcnt_eq b]
  omega

end BioSys

/-- The log header and the buffer cache during a transaction, with ghost state. -/
structure Txn (α : Type*) where
  bio : BioSys α
  log : Log
  /-- The `bpin`s `log_write` has made and `install_trans` has not yet undone. -/
  logPins : Fin NBUF → ℕ
  /-- The block numbers passed to `log_write` since the last commit, in order. -/
  written : List ℕ

/-- What the file system does inside a transaction: read a block of `log.dev`, write the data
of a buffer it holds, release it, or pass it to `log_write`. -/
inductive TxnCall (α : Type*)
  | bread (disk : ℕ → ℕ → α) (blockno : ℕ)
  | write (b : Fin NBUF) (data : α)
  | brelse (b : Fin NBUF)
  | logWrite (b : Fin NBUF)

namespace Txn

variable (dev : ℕ)

/-- `log_write(b)`. The loop stops at the first entry equal to `b->blockno`, or at `lh.n`;
`log.lh.block[i] = b->blockno`, and `bpin(b)` and `lh.n++` only when `i == lh.n`. -/
def logWrite (t : Txn α) (b : Fin NBUF) : Except String (Txn α) :=
  if t.log.n ≥ LOGSIZE ∨ t.log.n ≥ t.log.size - 1 then .error "too big a transaction"
  else if t.log.outstanding < 1 then .error "log_write outside of trans"
  else
    let blockno := (t.bio.cache.buf b).blockno
    let i := t.log.block.idxOf blockno
    if i = t.log.n then
      .ok { bio := { t.bio with
              cache := t.bio.cache.bpin b
              pins := Function.update t.bio.pins b (t.bio.pins b + 1) }
            log := { t.log with block := t.log.block ++ [blockno] }
            logPins := Function.update t.logPins b (t.logPins b + 1)
            written := t.written ++ [blockno] }
    else
      .ok { t with
            log := { t.log with block := t.log.block.set i blockno }
            written := t.written ++ [blockno] }

/-- One call of the transaction; `none` for a call on a buffer the caller does not hold, or a
`bread` that panics. -/
def step (t : Txn α) : TxnCall α → Option (Except String (Txn α))
  | .bread disk blockno => (t.bio.step (.bread disk dev blockno)).map fun bio => .ok { t with bio }
  | .write b data => (t.bio.step (.write b data)).map fun bio => .ok { t with bio }
  | .brelse b => (t.bio.step (.brelse b)).map fun bio => .ok { t with bio }
  | .logWrite b => if 0 < t.bio.held b then some (t.logWrite b) else none

/-- A sequence of calls: the state reached, a panic, or `none`. -/
def run (t : Txn α) : List (TxnCall α) → Option (Except String (Txn α))
  | [] => some (.ok t)
  | c :: cs =>
    match t.step dev c with
    | some (.ok t') => run t' cs
    | r => r

/-- The block number a call passes to `log_write`: the one cached in the buffer it names. -/
def logged (t : Txn α) : TxnCall α → List ℕ
  | .logWrite b => [(t.bio.cache.buf b).blockno]
  | _ => []

/-- The block numbers a sequence of calls passes to `log_write`, each read from its buffer in
the state the call is made in, up to the first call that does not return. -/
def passed (t : Txn α) : List (TxnCall α) → List ℕ
  | [] => []
  | c :: cs =>
    match t.step dev c with
    | some (.ok t') => t.logged c ++ passed t' cs
    | _ => t.logged c

/-! ### The header part of `log_write` -/

/-- Rewriting the entry the loop found with the block it looked for changes nothing. -/
theorem set_idxOf_self {l : List ℕ} {a : ℕ} (h : a ∈ l) : l.set (l.idxOf a) a = l := by
  have hi := List.idxOf_lt_length_iff.2 h
  calc l.set (l.idxOf a) a = l.set (l.idxOf a) l[l.idxOf a] := by rw [List.getElem_idxOf hi]
    _ = l := List.set_getElem_self hi

/-- The loop's index reuse is the absorption of `Log.logWrite`: the header after `log_write`
is the one `Xv6.Log.Op` models. -/
theorem logWrite_log (t : Txn α) (b : Fin NBUF) :
    (t.logWrite b).map Txn.log = t.log.logWrite (t.bio.cache.buf b).blockno := by
  unfold logWrite Log.logWrite
  by_cases hfull : t.log.n ≥ LOGSIZE ∨ t.log.n ≥ t.log.size - 1
  · simp only [if_pos hfull]
    rfl
  by_cases hout : t.log.outstanding < 1
  · simp only [if_neg hfull, if_pos hout]
    rfl
  by_cases hb : (t.bio.cache.buf b).blockno ∈ t.log.block
  · -- the loop stops at the entry holding the block, which is rewritten with itself
    have hi : t.log.block.idxOf (t.bio.cache.buf b).blockno ≠ t.log.n :=
      fun h => List.idxOf_eq_length_iff.1 h hb
    simp only [if_neg hfull, if_neg hout, if_neg hi, if_pos hb, set_idxOf_self hb]
    rfl
  · -- the loop runs to `lh.n`, where the block goes
    have hi : t.log.block.idxOf (t.bio.cache.buf b).blockno = t.log.n :=
      List.idxOf_eq_length_iff.2 hb
    simp only [if_neg hfull, if_neg hout, if_pos hi, if_neg hb]
    rfl

/-! ### The invariant of a transaction -/

/-- The invariant between two commits: the header's entries are distinct and are the blocks
passed to `log_write`; each is cached in a valid buffer with the one pin `log_write` made,
and no other buffer is pinned; the buffers the file system holds are valid blocks of `dev`. -/
structure Inv (t : Txn α) : Prop where
  bio : t.bio.Inv
  nodup : t.log.block.Nodup
  mem_written : ∀ x, x ∈ t.log.block ↔ x ∈ t.written
  pins_eq : t.bio.pins = t.logPins
  carried : ∀ x ∈ t.log.block, ∃ b, t.bio.Pinned dev b x
  pinned : ∀ b, 0 < t.bio.pins b → ∃ x ∈ t.log.block, t.bio.Pinned dev b x
  held_dev : ∀ b, 0 < t.bio.held b → (t.bio.cache.buf b).dev = dev
  held_valid : ∀ b, 0 < t.bio.held b → (t.bio.cache.buf b).valid = true

variable {dev} {t t' : Txn α}

/-- A call that keeps the header, the ghost state, the pins and what every held buffer caches,
keeps the invariant if it keeps every pinned buffer pinned and hands out only valid blocks of
`dev`. -/
theorem Inv.of_bio (ht : t.Inv dev) {bio' : BioSys α} (hbio : bio'.Inv) (hpins : bio'.pins = t.bio.pins)
    (hpinned : ∀ b x, t.bio.Pinned dev b x → bio'.Pinned dev b x)
    (hheld : ∀ b, 0 < bio'.held b →
      0 < t.bio.held b ∧ (t.bio.cache.buf b).Keeps (bio'.cache.buf b) ∨
        (bio'.cache.buf b).dev = dev ∧ (bio'.cache.buf b).valid = true) :
    ({ t with bio := bio' } : Txn α).Inv dev := by
  refine ⟨hbio, ht.nodup, ht.mem_written, hpins.trans ht.pins_eq, fun x hx => ?_, fun b hb => ?_,
    fun b hb => ?_, fun b hb => ?_⟩
  · obtain ⟨b, hp⟩ := ht.carried x hx
    exact ⟨b, hpinned b x hp⟩
  · obtain ⟨x, hx, hp⟩ := ht.pinned b (hpins ▸ hb)
    exact ⟨x, hx, hpinned b x hp⟩
  · rcases hheld b hb with ⟨hh, hk⟩ | ⟨hd, -⟩
    · exact hk.dev_eq.trans (ht.held_dev b hh)
    · exact hd
  · rcases hheld b hb with ⟨hh, hk⟩ | ⟨-, hv⟩
    · exact (hk.data_eq (ht.held_valid b hh)).1
    · exact hv

theorem Inv.bread (ht : t.Inv dev) {disk : ℕ → ℕ → α} {blockno : ℕ} {bio' : BioSys α}
    (h : t.bio.step (.bread disk dev blockno) = some bio') : ({ t with bio := bio' } : Txn α).Inv dev := by
  obtain ⟨⟨c', b₀⟩, hr, rfl⟩ := BioSys.step_bread.1 h
  have hb := ht.bio
  obtain ⟨hid, hval⟩ := hb.bread_ident hr
  refine ht.of_bio (hb.bread hr) rfl (fun b x hp => hp.bread hb hr) fun b hh => ?_
  by_cases hbb : b = b₀
  · -- the buffer `bread` returns
    subst hbb
    exact .inr ⟨congrArg Prod.fst hid, hval⟩
  · have hh' : 0 < t.bio.held b := by
      simpa [BioSys.got, Function.update_of_ne hbb] using hh
    exact .inl ⟨hh', hb.keeps_bread hr (hb.refcnt_pos_of_held hh')⟩

theorem Inv.write (ht : t.Inv dev) {b : Fin NBUF} {data : α} {bio' : BioSys α}
    (h : t.bio.step (.write b data) = some bio') : ({ t with bio := bio' } : Txn α).Inv dev := by
  obtain ⟨hb, rfl⟩ := BioSys.step_write.1 h
  refine ht.of_bio (ht.bio.write hb data) rfl (fun b' x hp => hp.write b data) fun b' hh => ?_
  -- the data is not part of what the invariant says of a held buffer
  refine .inr ⟨?_, ?_⟩
  · by_cases hbb : b' = b
    · subst hbb
      simpa using ht.held_dev b' hh
    · simpa [Function.update_of_ne hbb] using ht.held_dev b' hh
  · by_cases hbb : b' = b
    · subst hbb
      simpa using ht.held_valid b' hh
    · simpa [Function.update_of_ne hbb] using ht.held_valid b' hh

theorem Inv.brelse (ht : t.Inv dev) {b : Fin NBUF} {bio' : BioSys α}
    (h : t.bio.step (.brelse b) = some bio') : ({ t with bio := bio' } : Txn α).Inv dev := by
  obtain ⟨hb, rfl⟩ := BioSys.step_brelse.1 h
  refine ht.of_bio (ht.bio.brelse hb) rfl (fun b' x hp => hp.brelse b _ _) fun b' hh => .inl ?_
  have hh' : 0 < t.bio.held b' := by
    by_cases hbb : b' = b
    · subst hbb
      exact hb
    · simpa [Function.update_of_ne hbb] using hh
  refine ⟨hh', ?_⟩
  show (t.bio.cache.buf b').Keeps ((t.bio.cache.brelse b).buf b')
  rw [Bcache.brelse_buf]
  exact Buf.keeps_update fun _ => BioSys.keeps_refcnt _ _

/-- `log_write` of a held buffer keeps the invariant: a block already in the header is absorbed,
and a new one is appended with its buffer pinned, which no pin held before. -/
theorem Inv.logWrite (ht : t.Inv dev) {b : Fin NBUF} (hh : 0 < t.bio.held b)
    (h : t.logWrite b = .ok t') : t'.Inv dev := by
  have hid : t.bio.cache.ident b = (dev, (t.bio.cache.buf b).blockno) :=
    Prod.ext (ht.held_dev b hh) rfl
  unfold Txn.logWrite at h
  dsimp only at h
  split_ifs at h with hfull hout hi <;> cases h
  · -- `i == lh.n`: a new entry, and the buffer's first pin
    have hnew : (t.bio.cache.buf b).blockno ∉ t.log.block := List.idxOf_eq_length_iff.1 hi
    have hpins : t.bio.pins b = 0 := by
      by_contra hne
      obtain ⟨x, hx, hp⟩ := ht.pinned b (Nat.pos_of_ne_zero hne)
      exact hnew ((Prod.mk.inj (hp.ident.symm.trans hid)).2 ▸ hx)
    have hpb : BioSys.Pinned
        { t.bio with
          cache := t.bio.cache.bpin b
          pins := Function.update t.bio.pins b (t.bio.pins b + 1) }
        dev b (t.bio.cache.buf b).blockno :=
      ⟨ht.bio.used_of_held hh, by
        show (t.bio.cache.bpin b).ident b = _
        rw [Bcache.ident_bpin]
        exact hid, by simp [hpins],
        by simpa [Bcache.bpin_buf] using ht.held_valid b hh⟩
    -- the other pinned buffers are not `b`
    have hother : ∀ b' x, t.bio.Pinned dev b' x → b' ≠ b := fun b' x hp e => by
      subst e
      have h1 := hp.pins
      rw [hpins] at h1
      exact absurd h1 (by decide)
    refine ⟨ht.bio.bpin hh, List.nodup_append.2 ⟨ht.nodup, List.nodup_singleton _, ?_⟩,
      fun x => ?_, ?_, fun x hx => ?_, fun b' hb' => ?_, fun b' hb' => ?_, fun b' hb' => ?_⟩
    · intro x hx y hy
      rw [List.mem_singleton.1 hy]
      exact fun e => hnew (e ▸ hx)
    · simp only [List.mem_append, ht.mem_written]
    · simp only [ht.pins_eq]
    · rcases List.mem_append.1 hx with hx | hx
      · obtain ⟨b', hp⟩ := ht.carried x hx
        exact ⟨b', hp.bpin (hother b' x hp)⟩
      · rw [List.mem_singleton.1 hx]
        exact ⟨b, hpb⟩
    · by_cases hbb : b' = b
      · rw [hbb]
        exact ⟨_, List.mem_append_right _ (List.mem_singleton_self _), hpb⟩
      · have hb'' : 0 < t.bio.pins b' := by simpa [Function.update_of_ne hbb] using hb'
        obtain ⟨x, hx, hp⟩ := ht.pinned b' hb''
        exact ⟨x, List.mem_append_left _ hx, hp.bpin hbb⟩
    · -- `bpin` changes only the count
      have h₁ := ht.held_dev b' hb'
      show ((t.bio.cache.bpin b).buf b').dev = dev
      rw [Bcache.bpin_buf, Function.update_apply]
      split_ifs with hbb
      · subst hbb
        exact h₁
      · exact h₁
    · have h₁ := ht.held_valid b' hb'
      show ((t.bio.cache.bpin b).buf b').valid = true
      rw [Bcache.bpin_buf, Function.update_apply]
      split_ifs with hbb
      · subst hbb
        exact h₁
      · exact h₁
  · -- the loop found the block: the entry is rewritten with itself
    have hmem : (t.bio.cache.buf b).blockno ∈ t.log.block :=
      Classical.not_not.1 fun hn => hi (List.idxOf_eq_length_iff.2 hn)
    have hset := set_idxOf_self hmem
    refine ⟨ht.bio, ?_, fun x => ?_, ht.pins_eq, ?_, ?_, ht.held_dev, ht.held_valid⟩
    · simpa only [hset] using ht.nodup
    · simp only [hset, List.mem_append, List.mem_singleton, ← ht.mem_written]
      constructor
      · exact .inl
      · rintro (hx | rfl)
        · exact hx
        · exact hmem
    · simpa only [hset] using ht.carried
    · simpa only [hset] using ht.pinned

/-- Every call of the transaction keeps the invariant. -/
theorem Inv.step (ht : t.Inv dev) {c : TxnCall α} (h : t.step dev c = some (.ok t')) : t'.Inv dev := by
  cases c with
  | bread disk blockno =>
    obtain ⟨bio', hb, he⟩ := Option.map_eq_some_iff.1 h
    cases he
    exact ht.bread hb
  | write b data =>
    obtain ⟨bio', hb, he⟩ := Option.map_eq_some_iff.1 h
    cases he
    exact ht.write hb
  | brelse b =>
    obtain ⟨bio', hb, he⟩ := Option.map_eq_some_iff.1 h
    cases he
    exact ht.brelse hb
  | logWrite b =>
    simp only [Txn.step] at h
    split_ifs at h with hh
    exact ht.logWrite hh (Option.some.inj h)

/-- A run that ends in a state took every step to a state. -/
theorem run_cons_ok {c : TxnCall α} {cs : List (TxnCall α)} (h : t.run dev (c :: cs) = some (.ok t')) :
    ∃ t₁, t.step dev c = some (.ok t₁) ∧ t₁.run dev cs = some (.ok t') := by
  simp only [run] at h
  split at h
  · exact ⟨_, ‹_›, h⟩
  · rename_i hne
    exact absurd h (hne _)

theorem logWrite_written {b : Fin NBUF} (h : t.logWrite b = .ok t') :
    t'.written = t.written ++ [(t.bio.cache.buf b).blockno] := by
  unfold Txn.logWrite at h
  dsimp only at h
  split_ifs at h <;> cases h <;> rfl

/-- A call adds to the ghost list exactly the block it passes to `log_write`. -/
theorem step_written {c : TxnCall α} (h : t.step dev c = some (.ok t')) :
    t'.written = t.written ++ t.logged c := by
  cases c with
  | bread disk blockno =>
    obtain ⟨bio', -, he⟩ := Option.map_eq_some_iff.1 h
    cases he
    simp [logged]
  | write b data =>
    obtain ⟨bio', -, he⟩ := Option.map_eq_some_iff.1 h
    cases he
    simp [logged]
  | brelse b =>
    obtain ⟨bio', -, he⟩ := Option.map_eq_some_iff.1 h
    cases he
    simp [logged]
  | logWrite b =>
    simp only [Txn.step] at h
    split_ifs at h
    exact logWrite_written (Option.some.inj h)

/-- The ghost list of a run holds the blocks its calls passed to `log_write`. -/
theorem run_written {cs : List (TxnCall α)} (h : t.run dev cs = some (.ok t')) :
    t'.written = t.written ++ t.passed dev cs := by
  induction cs generalizing t with
  | nil =>
    cases h
    simp [passed]
  | cons c cs ih =>
    obtain ⟨t₁, h₁, h₂⟩ := run_cons_ok h
    simp only [ih h₂, step_written h₁, passed, h₁, List.append_assoc]

/-- Every run of the transaction keeps the invariant. -/
theorem Inv.run (ht : t.Inv dev) {cs : List (TxnCall α)} (h : t.run dev cs = some (.ok t')) :
    t'.Inv dev := by
  induction cs generalizing t with
  | nil =>
    cases h
    exact ht
  | cons c cs ih =>
    obtain ⟨t₁, h₁, h₂⟩ := run_cons_ok h
    exact ih (ht.step h₁) h₂

/-! ### The commit -/

variable (disk : ℕ → ℕ → α) (start : ℕ)
variable (dev)

/-- One turn of `write_log`'s loop: copy the cached block `blockno` into log block
`start + tail + 1`; the data it copies. -/
def writeLogPass (tail blockno : ℕ) (s : BioSys α) : Option (BioSys α × α) := do
  let (s, toBuf) ← s.breadGot disk dev (start + tail + 1)
  let (s, fromBuf) ← s.breadGot disk dev blockno
  -- `memmove(to->data, from->data, BSIZE); bwrite(to)`: the disk write is not modelled
  let data := (s.cache.buf fromBuf).data
  let s ← s.step (.write toBuf data)
  let s ← s.step (.brelse fromBuf)
  let s ← s.step (.brelse toBuf)
  pure (s, data)

theorem writeLogPass_spec {s s' : BioSys α} {d : α} (hs : s.Inv) (hdev : dev ≠ 0)
    {c : ℕ → Fin NBUF} {D : ℕ → α} {ys : List ℕ} (hc : s.CachedIn dev c D ys) {tail x : ℕ}
    (hx : x ∈ ys) (hlog : start + tail + 1 ∉ ys)
    (h : writeLogPass dev disk start tail x s = some (s', d)) :
    d = D x ∧ s'.Inv ∧ s'.CachedIn dev c D ys ∧ s'.pins = s.pins := by
  unfold writeLogPass at h
  -- `to = bread(log.dev, log.start+tail+1)`: a buffer that is none of the pinned ones
  obtain ⟨⟨s₁, tb⟩, h₁, h⟩ := Option.bind_eq_some_iff.1 h
  obtain ⟨c₁, hr₁, rfl⟩ := BioSys.breadGot_eq h₁
  have hs₁ := hs.bread hr₁
  have hc₁ := hc.bread hs hr₁
  have htb : ∀ y ∈ ys, c y ≠ tb := fun y hy e => by
    have hy' := (hc₁ y hy).1.ident
    rw [e] at hy'
    exact hlog ((Prod.mk.inj ((hs.bread_ident hr₁).1.symm.trans hy')).2 ▸ hy)
  -- `from = bread(log.dev, log.lh.block[tail])` hits the pinned buffer
  obtain ⟨hpx, -⟩ := hc₁ x hx
  have hr₂ := hs₁.bread_pinned hpx hdev disk
  obtain ⟨⟨s₂, fb⟩, h₂, h⟩ := Option.bind_eq_some_iff.1 h
  rw [BioSys.breadGot, hr₂, Option.map_some] at h₂
  obtain ⟨hs₂e, rfl⟩ := Prod.mk.inj (Option.some.inj h₂)
  dsimp only at h
  have hs₂ : s₂.Inv := hs₂e ▸ hs₁.bread hr₂
  have hc₂ : s₂.CachedIn dev c D ys := hs₂e ▸ hc₁.bread hs₁ hr₂
  have hdata : (s₂.cache.buf (c x)).data = D x := (hc₂ x hx).2
  -- `memmove(to->data, from->data, BSIZE)`, then the two `brelse`
  obtain ⟨s₃, h₃, h⟩ := Option.bind_eq_some_iff.1 h
  obtain ⟨hheld₃, rfl⟩ := BioSys.step_write.1 h₃
  obtain ⟨s₄, h₄, h⟩ := Option.bind_eq_some_iff.1 h
  obtain ⟨hheld₄, rfl⟩ := BioSys.step_brelse.1 h₄
  obtain ⟨s₅, h₅, h⟩ := Option.bind_eq_some_iff.1 h
  obtain ⟨hheld₅, rfl⟩ := BioSys.step_brelse.1 h₅
  cases h
  refine ⟨?_, ((hs₂.write hheld₃ _).brelse hheld₄).brelse hheld₅,
    (((hc₂.write htb _).brelse _ _ _).brelse _ _ _), ?_⟩
  · rw [← hdata]
  · -- neither `bread` nor `brelse` pins
    rw [← hs₂e]
    rfl

/-- `write_log()` from entry `tail` on: the data copied to the log blocks. -/
def writeLog : BioSys α → List ℕ → ℕ → Option (BioSys α × List α)
  | s, [], _ => some (s, [])
  | s, blockno :: rest, tail => do
    let (s, data) ← writeLogPass dev disk start tail blockno s
    let (s, copied) ← writeLog s rest (tail + 1)
    pure (s, data :: copied)

/-- `write_log` copies the cached data of each entry, in order, and pins nothing. -/
theorem writeLog_spec {c : ℕ → Fin NBUF} {D : ℕ → α} {ys : List ℕ} (hdev : dev ≠ 0)
    (xs : List ℕ) (hxs : ∀ x ∈ xs, x ∈ ys) {s s' : BioSys α} {copied : List α} {tail : ℕ}
    (hs : s.Inv) (hc : s.CachedIn dev c D ys)
    (hlog : ∀ k, tail ≤ k → k < tail + xs.length → start + k + 1 ∉ ys)
    (h : writeLog dev disk start s xs tail = some (s', copied)) :
    copied = xs.map D ∧ s'.Inv ∧ s'.CachedIn dev c D ys ∧ s'.pins = s.pins := by
  induction xs generalizing s tail copied with
  | nil =>
    cases h
    exact ⟨rfl, hs, hc, rfl⟩
  | cons x xs ih =>
    unfold writeLog at h
    obtain ⟨⟨s₁, d⟩, h₁, h⟩ := Option.bind_eq_some_iff.1 h
    obtain ⟨rfl, hs₁, hc₁, hp₁⟩ := writeLogPass_spec dev disk start hs hdev hc
      (hxs x List.mem_cons_self) (hlog tail (Nat.le_refl _) (by simp)) h₁
    dsimp only at h
    obtain ⟨⟨s₂, ds⟩, h₂, h⟩ := Option.bind_eq_some_iff.1 h
    cases h
    obtain ⟨rfl, hs₂, hc₂, hp₂⟩ := ih (fun y hy => hxs y (List.mem_cons_of_mem x hy)) hs₁ hc₁
      (fun k hk₁ hk₂ => hlog k (by omega) (by simp; omega)) h₂
    exact ⟨rfl, hs₂, hc₂, hp₂.trans hp₁⟩

/-- One turn of `install_trans(0)`'s loop: copy log block `start + tail + 1` home to `blockno`
and unpin the home block's buffer. -/
def installTransPass (tail blockno : ℕ) (s : BioSys α) : Option (BioSys α) := do
  let (s, lbuf) ← s.breadGot disk dev (start + tail + 1)
  let (s, dbuf) ← s.breadGot disk dev blockno
  -- `memmove(dbuf->data, lbuf->data, BSIZE); bwrite(dbuf)`
  let s ← s.step (.write dbuf (s.cache.buf lbuf).data)
  let s ← s.step (.bunpin dbuf)
  let s ← s.step (.brelse lbuf)
  s.step (.brelse dbuf)

theorem installTransPass_spec {s s' : BioSys α} (hs : s.Inv) (hdev : dev ≠ 0)
    {c : ℕ → Fin NBUF} {D : ℕ → α} {x : ℕ} {ys : List ℕ} (hc : s.CachedIn dev c D (x :: ys))
    (hnd : x ∉ ys) {tail : ℕ} (h : installTransPass dev disk start tail x s = some s') :
    s'.Inv ∧ s'.CachedIn dev c D ys ∧ s'.pins = Function.update s.pins (c x) 0 := by
  unfold installTransPass at h
  -- `lbuf = bread(log.dev, log.start+tail+1)`: none of the pinned buffers
  obtain ⟨⟨s₁, lb⟩, h₁, h⟩ := Option.bind_eq_some_iff.1 h
  obtain ⟨c₁, hr₁, rfl⟩ := BioSys.breadGot_eq h₁
  have hs₁ := hs.bread hr₁
  have hc₁ := hc.bread hs hr₁
  -- `dbuf = bread(log.dev, log.lh.block[tail])` hits the pinned buffer
  have hr₂ := hs₁.bread_pinned (hc₁ x List.mem_cons_self).1 hdev disk
  obtain ⟨⟨s₂, db⟩, h₂, h⟩ := Option.bind_eq_some_iff.1 h
  rw [BioSys.breadGot, hr₂, Option.map_some] at h₂
  obtain ⟨hs₂e, rfl⟩ := Prod.mk.inj (Option.some.inj h₂)
  dsimp only at h
  have hs₂ : s₂.Inv := hs₂e ▸ hs₁.bread hr₂
  have hc₂ : s₂.CachedIn dev c D ys := hs₂e ▸ (hc₁.bread hs₁ hr₂).mono fun y => List.mem_cons_of_mem x
  have hpins₂ : s₂.pins = s.pins := by
    rw [← hs₂e]
    rfl
  -- the other entries are cached in other buffers
  have hcx : ∀ y ∈ ys, c y ≠ c x := fun y hy e =>
    hnd (hc.eq_of_buf (List.mem_cons_of_mem x hy) List.mem_cons_self e ▸ hy)
  -- `memmove(dbuf->data, lbuf->data, BSIZE)`, `bunpin(dbuf)`, then the two `brelse`
  obtain ⟨s₃, h₃, h⟩ := Option.bind_eq_some_iff.1 h
  obtain ⟨hheld₃, rfl⟩ := BioSys.step_write.1 h₃
  obtain ⟨s₄, h₄, h⟩ := Option.bind_eq_some_iff.1 h
  obtain ⟨hpin₄, rfl⟩ := BioSys.step_bunpin.1 h₄
  obtain ⟨s₅, h₅, h⟩ := Option.bind_eq_some_iff.1 h
  obtain ⟨hheld₅, rfl⟩ := BioSys.step_brelse.1 h₅
  obtain ⟨hheld₆, rfl⟩ := BioSys.step_brelse.1 h
  refine ⟨(((hs₂.write hheld₃ _).bunpin hpin₄).brelse hheld₅).brelse hheld₆,
    (((hc₂.write hcx _).bunpin hcx).brelse _ _ _).brelse _ _ _, ?_⟩
  -- the one pin `log_write` made is gone
  show Function.update s₂.pins (c x) (s₂.pins (c x) - 1) = _
  rw [hpins₂, (hc x List.mem_cons_self).1.pins]

/-- `install_trans(0)` from entry `tail` on. -/
def installTrans : BioSys α → List ℕ → ℕ → Option (BioSys α)
  | s, [], _ => some s
  | s, blockno :: rest, tail => do
    let s ← installTransPass dev disk start tail blockno s
    installTrans s rest (tail + 1)

/-- `install_trans(0)` unpins the buffer of each entry once, and no other. -/
theorem installTrans_spec {c : ℕ → Fin NBUF} {D : ℕ → α} (hdev : dev ≠ 0) (xs : List ℕ)
    (hnd : xs.Nodup) {s s' : BioSys α} {tail : ℕ} (hs : s.Inv) (hc : s.CachedIn dev c D xs)
    (h : installTrans dev disk start s xs tail = some s') :
    s'.Inv ∧ ∀ b, s'.pins b = if ∃ x ∈ xs, c x = b then 0 else s.pins b := by
  induction xs generalizing s tail with
  | nil =>
    cases h
    exact ⟨hs, fun b => by simp⟩
  | cons x xs ih =>
    unfold installTrans at h
    obtain ⟨s₁, h₁, h⟩ := Option.bind_eq_some_iff.1 h
    have hx := (List.nodup_cons.1 hnd).1
    obtain ⟨hs₁, hc₁, hp₁⟩ := installTransPass_spec dev disk start hs hdev hc hx h₁
    obtain ⟨hs', hp'⟩ := ih (List.nodup_cons.1 hnd).2 hs₁ hc₁ h
    refine ⟨hs', fun b => ?_⟩
    rw [hp' b, hp₁]
    -- `c x` was unpinned by this turn, the others by the rest of the loop
    by_cases hb : ∃ y ∈ xs, c y = b
    · rw [if_pos hb, if_pos (let ⟨y, hy, he⟩ := hb; ⟨y, List.mem_cons_of_mem x hy, he⟩)]
    · rw [if_neg hb]
      by_cases hxb : c x = b
      · rw [hxb, Function.update_self, if_pos ⟨x, List.mem_cons_self, hxb⟩]
      · rw [Function.update_of_ne (Ne.symm hxb), if_neg]
        rintro ⟨y, hy, he⟩
        rcases List.mem_cons.1 hy with rfl | hy
        · exact hxb he
        · exact hb ⟨y, hy, he⟩

/-- `commit()` with the log at `start`: `write_log`, `write_head`, `install_trans(0)`, then
`lh.n = 0` and `write_head` (the header writes are not modelled); the data copied to the log. -/
def commit (t : Txn α) : Option (Txn α × List α) := do
  let (s, copied) ← writeLog dev disk start t.bio t.log.block 0
  let s ← installTrans dev disk start s t.log.block 0
  pure ({ bio := s, log := { t.log with block := [] }, logPins := fun _ => 0, written := [] }, copied)

variable {dev disk start}

/-- The commit of a transaction: `write_log` copies the cached data of each entry's pinned
buffer, and `install_trans` takes away every pin `log_write` made, so that each `refcnt` is back
to the references the file system holds. The log's data blocks must not be entries. -/
theorem Inv.commit_spec (ht : t.Inv dev) (hdev : dev ≠ 0)
    (hlog : ∀ k < t.log.n, start + k + 1 ∉ t.log.block) {copied : List α}
    (h : t.commit dev disk start = some (t', copied)) :
    ∃ c : ℕ → Fin NBUF, (∀ x ∈ t.log.block, t.bio.Pinned dev (c x) x ∧ t.logPins (c x) = 1) ∧
      copied = t.log.block.map (fun x => (t.bio.cache.buf (c x)).data) ∧
      t'.bio.Inv ∧ ∀ b, t'.bio.pins b = 0 ∧ (t'.bio.cache.buf b).refcnt = t'.bio.held b := by
  have : Nonempty (Fin NBUF) := ⟨⟨0, by decide⟩⟩
  choose! c hc using ht.carried
  have hcached : t.bio.CachedIn dev c (fun x => (t.bio.cache.buf (c x)).data) t.log.block :=
    fun x hx => ⟨hc x hx, rfl⟩
  unfold commit at h
  obtain ⟨⟨s₁, cp⟩, h₁, h⟩ := Option.bind_eq_some_iff.1 h
  obtain ⟨rfl, hs₁, hc₁, hp₁⟩ := writeLog_spec dev disk start hdev _ (fun x hx => hx) ht.bio
    hcached (fun k _ hk => hlog k (by simpa [Log.n] using hk)) h₁
  dsimp only at h
  obtain ⟨s₂, h₂, h⟩ := Option.bind_eq_some_iff.1 h
  cases h
  obtain ⟨hs₂, hp₂⟩ := installTrans_spec dev disk start hdev _ ht.nodup hs₁ hc₁ h₂
  refine ⟨c, fun x hx => ⟨hc x hx, ht.pins_eq ▸ (hc x hx).pins⟩, rfl, hs₂, fun b => ?_⟩
  have hpins : s₂.pins b = 0 := by
    rw [hp₂ b]
    split_ifs with hb
    · rfl
    · -- a pinned buffer is the buffer of its entry
      rw [hp₁]
      by_contra hne
      obtain ⟨x, hx, hp⟩ := ht.pinned b (Nat.pos_of_ne_zero hne)
      exact hb ⟨x, hx, ht.bio.carrier_unique (by simp [hdev]) (hc x hx).ident hp.ident⟩
  exact ⟨hpins, by rw [hs₂.refcnt_eq b, hpins, Nat.add_zero]⟩

/-- A transaction right after a commit: the header empty, nothing logged or pinned. -/
def begin (bio : BioSys α) (l : Log) : Txn α :=
  ⟨bio, { l with block := [] }, fun _ => 0, []⟩

theorem Inv.begin {bio : BioSys α} (hbio : bio.Inv) (hpins : ∀ b, bio.pins b = 0)
    (hheld : ∀ b, 0 < bio.held b → (bio.cache.buf b).dev = dev ∧ (bio.cache.buf b).valid = true)
    (l : Log) : (begin bio l).Inv dev where
  bio := hbio
  nodup := List.nodup_nil
  mem_written := fun _ => Iff.rfl
  pins_eq := funext hpins
  carried := fun _ hx => absurd hx List.not_mem_nil
  pinned := fun b hb => absurd hb (by
    show ¬0 < bio.pins b
    rw [hpins b]
    exact Nat.lt_irrefl 0)
  held_dev := fun b hb => (hheld b hb).1
  held_valid := fun b hb => (hheld b hb).2

/-- Log absorption. From a commit on, over every sequence of reads, writes, releases and
`log_write` calls of the file system, the header's entries are distinct and are exactly the
block numbers passed to `log_write`; each is cached in a buffer that `log_write` pinned exactly
once, and no other buffer is pinned. At the next commit, when the log's data blocks are not
entries, `write_log` copies the cached data of every entry once, in the header's order, and
`install_trans` leaves no buffer pinned, each `refcnt` counting the references held. -/
theorem log_absorption {dev : ℕ} (hdev : dev ≠ 0) {bio : BioSys α} (hbio : bio.Inv)
    (hpins : ∀ b, bio.pins b = 0)
    (hheld : ∀ b, 0 < bio.held b → (bio.cache.buf b).dev = dev ∧ (bio.cache.buf b).valid = true)
    (l : Log) (calls : List (TxnCall α)) {t : Txn α} (h : (begin bio l).run dev calls = some (.ok t)) :
    t.log.block.Nodup ∧ (∀ x, x ∈ t.log.block ↔ x ∈ (begin bio l).passed dev calls) ∧
    (∀ x ∈ t.log.block, ∃ b, t.bio.Pinned dev b x ∧ t.logPins b = 1) ∧
    (∀ b, t.bio.pins b = t.logPins b ∧ (0 < t.logPins b → ∃ x ∈ t.log.block, t.bio.Pinned dev b x)) ∧
    ∀ (disk : ℕ → ℕ → α) (start : ℕ), (∀ k < t.log.n, start + k + 1 ∉ t.log.block) →
      ∀ t' copied, t.commit dev disk start = some (t', copied) →
        ∃ c : ℕ → Fin NBUF, (∀ x ∈ t.log.block, t.bio.Pinned dev (c x) x ∧ t.logPins (c x) = 1) ∧
          copied = t.log.block.map (fun x => (t.bio.cache.buf (c x)).data) ∧
          ∀ b, t'.bio.pins b = 0 ∧ (t'.bio.cache.buf b).refcnt = t'.bio.held b := by
  have ht := (Inv.begin hbio hpins hheld l).run h
  have hw : t.written = (begin bio l).passed dev calls := by
    rw [run_written h]
    rfl
  refine ⟨ht.nodup, hw ▸ ht.mem_written, fun x hx => ?_, fun b => ⟨congrFun ht.pins_eq b, fun hb => ?_⟩,
    fun disk start hlog t' copied hc => ?_⟩
  · obtain ⟨b, hp⟩ := ht.carried x hx
    exact ⟨b, hp, ht.pins_eq ▸ hp.pins⟩
  · exact ht.pinned b (ht.pins_eq ▸ hb)
  · obtain ⟨c, hc₁, hcopied, -, hpins'⟩ := ht.commit_spec hdev hlog hc
    exact ⟨c, hc₁, hcopied, hpins'⟩

/-- Block 33 read into `buf[0]`, logged, written and logged again, then released. -/
theorem log_absorption_twice :
    ∃ t : Txn ℕ, (begin (BioSys.init 0 (fun _ => none) (fun _ => none)) ⟨LOGSIZE, 1, false, []⟩).run 1
        [.bread (fun _ _ => 7) 33, .logWrite ⟨0, by decide⟩, .write ⟨0, by decide⟩ 8,
          .logWrite ⟨0, by decide⟩, .brelse ⟨0, by decide⟩] = some (.ok t) ∧
      t.log.block.Nodup ∧ (∀ x, x ∈ t.log.block ↔ x ∈
        (begin (BioSys.init 0 (fun _ => none) (fun _ => none)) ⟨LOGSIZE, 1, false, []⟩).passed 1
          [.bread (fun _ _ => 7) 33, .logWrite ⟨0, by decide⟩, .write ⟨0, by decide⟩ 8,
            .logWrite ⟨0, by decide⟩, .brelse ⟨0, by decide⟩]) ∧
      (∀ x ∈ t.log.block, ∃ b, t.bio.Pinned 1 b x ∧ t.logPins b = 1) ∧
      (∀ b, t.bio.pins b = t.logPins b ∧ (0 < t.logPins b → ∃ x ∈ t.log.block, t.bio.Pinned 1 b x)) ∧
      ∀ (disk : ℕ → ℕ → ℕ) (start : ℕ), (∀ k < t.log.n, start + k + 1 ∉ t.log.block) →
        ∀ t' copied, t.commit 1 disk start = some (t', copied) →
          ∃ c : ℕ → Fin NBUF, (∀ x ∈ t.log.block, t.bio.Pinned 1 (c x) x ∧ t.logPins (c x) = 1) ∧
            copied = t.log.block.map (fun x => (t.bio.cache.buf (c x)).data) ∧
            ∀ b, t'.bio.pins b = 0 ∧ (t'.bio.cache.buf b).refcnt = t'.bio.held b :=
  ⟨_, rfl, log_absorption (by decide : (1 : ℕ) ≠ 0)
    (BioSys.Inv.init 0 (fun _ => none) (fun _ => none)) (fun _ => rfl)
    (fun _ hb => absurd hb (Nat.lt_irrefl 0)) ⟨LOGSIZE, 1, false, []⟩
    [.bread (fun _ _ => 7) 33, .logWrite ⟨0, by decide⟩, .write ⟨0, by decide⟩ 8,
      .logWrite ⟨0, by decide⟩, .brelse ⟨0, by decide⟩] rfl⟩

end Txn

end Xv6
