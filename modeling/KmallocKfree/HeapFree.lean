import KmallocKfree.Coalesce

/-!
# Freeing a large block

The huge branch of `kfree` puts a block and its header back on the heap free
list. The header's 16 bytes are counted only when a free node ends at the header;
the two branches that make the header itself a node record the block without them.
-/
namespace KmallocKfree

open Prog Region

section Edits

variable {m : ByteMemory.Mem} {s e n : ℕ} {l l₁ l₂ : List Region} {a b q : Region}

theorem Separated.nodup_list (h : Separated l) : l.Nodup :=
  List.Nodup.of_map _ h.nodup

/-- Separation is about the starts of the regions. -/
theorem Separated.of_starts (h : Separated l) (hs : l₁.map Region.start = l.map Region.start) :
    Separated l₁ := by
  unfold Separated at *
  rw [← List.pairwise_map (f := Region.start)] at *
  rw [hs]
  exact h

/-- Store another length in the record of a region that has grown already. -/
theorem FreeList.regrow {k : ℕ} (h : FreeList m s (grow b k l) e) (hsep : Separated l)
    (hb : b ∈ l) (hn : b.len + n < 2147483648) :
    FreeList (setSizeAt m b.start (b.len + n : ℕ)) s (grow b n l) e := by
  obtain ⟨l₁, l₂, rfl⟩ := List.append_of_mem hb
  obtain ⟨-, hnd₂, hdisj⟩ := List.nodup_append.mp hsep.nodup_list
  have h₁ : b ∉ l₁ := fun h => hdisj b h b List.mem_cons_self rfl
  have h₂ : b ∉ l₂ := (List.nodup_cons.mp hnd₂).1
  rw [grow_split _ h₁ h₂] at h ⊢
  exact h.resize hn fun t ht => hsep.apart ht

theorem FreeList.grow (h : FreeList m s l e) (hsep : Separated l) (hb : b ∈ l)
    (hn : b.len + n < 2147483648) :
    FreeList (setSizeAt m b.start (b.len + n : ℕ)) s (KmallocKfree.grow b n l) e :=
  FreeList.regrow (k := 0) (by rwa [grow_zero]) hsep hb hn

/-- Bypass region `a`, which comes after `q`. -/
theorem FreeList.unlink (h : FreeList m s (l₁ ++ q :: a :: l₂) e)
    (hsep : Separated (l₁ ++ q :: a :: l₂)) :
    FreeList (setNextAt m q.start (nextAt m a.start)) s (l₁ ++ q :: l₂) e := by
  have happ : ∀ t ∈ l₁ ++ a :: l₂, Apart q.start t.start := fun t ht => hsep.apart ht
  have h' : FreeList m s ((l₁ ++ [q]) ++ a :: l₂) e := by simpa using h
  obtain ⟨c, h₁, h₂⟩ := FreeList.append.mp h'
  obtain ⟨-, -, hrest⟩ := FreeList.cons.mp h₂
  have := h₁.splice hrest (nextAt_lt _ _) (fun t ht => happ t (by simp [ht]))
    (fun t ht => happ t (by simp [ht]))
  simpa using this

theorem erase_split (h : (l₁ ++ a :: l₂).Nodup) : (l₁ ++ a :: l₂).erase a = l₁ ++ l₂ := by
  obtain ⟨-, -, hdisj⟩ := List.nodup_append.mp h
  have h₁ : a ∉ l₁ := fun h => hdisj a h a List.mem_cons_self rfl
  rw [List.erase_append_right _ h₁, List.erase_cons_head]

/-- A node behind the first has one before it. -/
theorem exists_before {r : Region} (ha : a ∈ l) (hnd : l.Nodup) :
    ∃ l₀ q l₂, r :: l = l₀ ++ [q] ++ a :: l₂ ∧ r :: l.erase a = l₀ ++ q :: l₂ := by
  obtain ⟨l₁, l₂, rfl⟩ := List.append_of_mem ha
  obtain ⟨l₀, q, hq⟩ : ∃ l₀ q, r :: l₁ = l₀ ++ [q] :=
    (List.eq_nil_or_concat' (r :: l₁)).resolve_left (List.cons_ne_nil r l₁)
  refine ⟨l₀, q, l₂, ?_, ?_⟩
  · rw [← List.cons_append, hq]
  · rw [erase_split hnd, ← List.cons_append, hq, List.append_assoc, List.singleton_append]

end Edits

section Steps

variable {F : Footprint Struct Global Lock} {s : PmmState} {k : Struct} {h p : ℕ}
  {l l₁ l₂ : List Region} {a b t : Region}

/-- The address where the node at `p` ends. -/
def stopAt (m : ByteMemory.Mem) (p : ℕ) : ℕ := addPtr p (toSize (sizeAt m p))

theorem FreeList.stopAt_eq {m : ByteMemory.Mem} {e : ℕ} {r : Region} (hl : FreeList m h l e)
    (hr : r ∈ l) (hmax : r.stop < 18446744073709551616) : stopAt m r.start = r.stop := by
  have hlen := (sizeAt_bounds m r.start).2
  rw [hl.size r hr] at hlen
  rw [stopAt, hl.size r hr, toSize_natCast (by omega), addPtr_of_lt hmax]
  rfl

theorem wp_endsAt {target : ℕ} {Q : Bool → PmmState → Prop} (hsees : p ≠ 0 → F.Sees k p 16)
    (hQ : Q (decide (p ≠ 0 ∧ stopAt s.mem p = target)) s) :
    wp F.Allows (endsAt (fun q => readInt k q 8) p target) s Q := by
  unfold endsAt
  by_cases hp : p = 0
  · simpa [hp] using hQ
  · rw [if_pos hp, wp_bind, wp_readSize (hsees hp), wp_pure]
    simpa [hp, stopAt] using hQ

/-- Who owns the nodes of a list may walk along it. -/
theorem sees_starts {L : List Region} (howns : ∀ r ∈ L, F.Owns k r.start 16) :
    ∀ x ∈ L.map Region.start, F.Sees k x 16 :=
  List.forall_mem_map.mpr fun r hr => (howns r hr).toSees

/-- The search for the node before one of a list. -/
theorem wp_predecessor_before {L₁ L₂ : List ℕ} {Q : ℕ → PmmState → Prop}
    (hpath : Path (nextAt s.mem) h (L₁ ++ p :: L₂) 0) (hnd : (L₁ ++ p :: L₂).Nodup)
    (hsees : ∀ x ∈ L₁ ++ p :: L₂, F.Sees k x 16) (hlen : (L₁ ++ p :: L₂).length < loopBound)
    (hQ : Q (L₁.getLastD 0) s) : wp F.Allows (predecessor (readPtr k) p h) s Q := by
  refine wp_predecessor hpath hsees hlen ?_
  rw [hpath.find_before hnd (hsees p (by simp)).ne_null]
  exact hQ

end Steps

section Huge

variable {F : Footprint Struct Global Lock} {s : PmmState} {l : List Region} {a b t : Region}

/-- What the huge branch of `kfree` makes of the free list when it frees the
region `t`, a block with its header. -/
def giveBack (t : Region) (l : List Region) : List Region :=
  match touchingBelow l t, touchingAbove l t with
  | some b, some a => (grow b (t.len + a.len) l).erase a
  | some b, none => grow b t.len l
  | none, some a => (⟨t.start, t.len - headerBytes + a.len⟩ :: l).erase a
  | none, none => ⟨t.start, t.len - headerBytes⟩ :: l

theorem wp_hugeUnlink (hl : FreeList s.mem (s.var .head) l 0)
    (howns : ∀ x ∈ l, F.Owns .freenode x.start 16) (hcount : l.length < loopBound)
    (hsep : Separated l) (hget : F.gets .head) (hset : F.sets .head) (ha : a ∈ l) :
    wp F.Allows (hugeUnlink a.start) s fun _ s' =>
      FreeList s'.mem (s'.var .head) (l.erase a) 0 ∧ s'.lock = s.lock := by
  obtain ⟨l₁, l₂, rfl⟩ := List.append_of_mem ha
  rw [erase_split hsep.nodup_list]
  have hown := howns a (by simp)
  have hpath := hl.path
  have hnd := hsep.nodup
  have hsees : ∀ x ∈ (l₁ ++ a :: l₂).map Region.start, F.Sees .freenode x 16 := sees_starts howns
  rw [← List.length_map (f := Region.start)] at hcount
  simp only [List.map_append, List.map_cons] at hpath hnd hsees hcount
  unfold hugeUnlink
  rw [wp_bind, wp_getGlobal hget, wp_bind]
  refine wp_predecessor_before hpath hnd hsees hcount ?_
  rcases List.eq_nil_or_concat' l₁ with rfl | ⟨l₀, q, rfl⟩
  · obtain ⟨hhead, -, hrest⟩ := FreeList.cons.mp hl
    simp only [List.map_nil, List.getLastD_nil, ne_eq, not_true_eq_false, if_false, wp_bind,
      wp_getGlobal hget, hhead, wp_readPtr hown.toSees, wp_setGlobal hset]
    exact ⟨hrest, rfl⟩
  · have hq := howns q (by simp)
    have hlast : ((l₀ ++ [q]).map Region.start).getLastD 0 = q.start := lastStart_concat l₀ q
    simp only [hlast, ne_eq, hq.ne_null, not_false_eq_true, if_true, wp_bind,
      wp_readPtr hown.toSees, wp_writePtr hq]
    refine ⟨?_, rfl⟩
    rw [List.append_assoc, List.singleton_append] at hl hsep ⊢
    exact hl.unlink hsep

/-- A free node that ends at the header takes in the block and its header. -/
theorem wp_hugeMergeBefore {ptr size : ℕ} (hl : FreeList s.mem (s.var .head) l 0)
    (howns : ∀ x ∈ l, F.Owns .freenode x.start 16) (hcount : l.length < loopBound)
    (hsep : Separated l) (hget : F.gets .head) (hset : F.sets .head) {x lo hi : ℕ}
    (hpos : ∀ r ∈ l, 0 < r.len) (hin : ∀ r ∈ l, lo ≤ r.start ∧ r.stop ≤ hi)
    (hhi : hi < lo + 2147483648) (hmax : hi < 18446744073709551616)
    (hb : b ∈ l) (hptr : b.stop + headerBytes = ptr) (hstop : ptr + size ≤ hi)
    (hx : (∃ a, touchingAbove l ⟨b.stop, size + headerBytes⟩ = some a ∧ x = a.start ∧
        ptr + size = x) ∨
      (touchingAbove l ⟨b.stop, size + headerBytes⟩ = none ∧ ptr + size ≠ x)) :
    wp F.Allows (hugeMergeBefore ptr size b.start x) s fun _ s' =>
      FreeList s'.mem (s'.var .head)
        (match touchingAbove l ⟨b.stop, size + headerBytes⟩ with
        | some a => (grow b (size + headerBytes + a.len) l).erase a
        | none => grow b (size + headerBytes) l) 0 ∧ s'.lock = s.lock := by
  have hown := howns b hb
  have hbin := hin b hb
  have hsize := hl.size b hb
  have haddr : addPtr ptr size = ptr + size := addPtr_of_lt (by omega)
  unfold Region.stop at *
  have hgrow := hl.grow hsep hb (n := size + headerBytes) (by omega)
  have hcast : (b.len : ℤ) + size + headerBytes = ((b.len + (size + headerBytes) : ℕ) : ℤ) := by
    push_cast
    omega
  unfold hugeMergeBefore
  simp only [wp_bind, wp_readSize hown.toSees, wp_writeSize hown, hsize, hcast, haddr,
    wp_ite, Store.setMem_mem, wp_pure]
  rcases hx with ⟨a, ha, rfl, heq⟩ | ⟨hnone, hne⟩
  · rw [if_pos heq, ha]
    obtain ⟨hamem, hastart⟩ := touchingAbove_some ha
    have hain := hin a hamem
    have haown := howns a hamem
    have hapos := hpos a hamem
    have hba : b ≠ a := by
      rintro rfl
      unfold Region.stop at hastart
      simp only at hastart
      omega
    obtain ⟨l₁, l₂, hsplit⟩ := List.append_of_mem hb
    have happ : ∀ t ∈ l, t ≠ b → Apart b.start t.start := by
      intro t ht hne
      rw [hsplit] at ht hsep
      exact hsep.apart (by simpa [hne] using ht)
    have hasize :
        sizeAt (setSizeAt s.mem b.start ((b.len + (size + headerBytes) : ℕ) : ℤ)) a.start =
        a.len := by
      rw [(SameRecord.setSizeAt (happ a hamem hba.symm) _).size]
      exact hl.size a hamem
    have hbsize := sizeAt_setSizeAt s.mem b.start
      (i := ((b.len + (size + headerBytes) : ℕ) : ℤ)) (by omega) (by omega)
    have hcast₂ : ((b.len + (size + headerBytes) : ℕ) : ℤ) + a.len =
        ((b.len + (size + headerBytes + a.len) : ℕ) : ℤ) := by
      push_cast
      omega
    simp only [wp_readSize haown.toSees, Store.setMem_mem, hasize, hbsize, hcast₂]
    have hsep' := hsep.of_starts (grow_starts b (size + headerBytes + a.len) l)
    refine wp_post (wp_hugeUnlink (l := grow b (size + headerBytes + a.len) l)
      (hgrow.regrow hsep hb (by omega)) ?_ (by rwa [grow_length]) hsep' hget hset
      (mem_grow_of_ne _ hamem hba.symm)) fun _ _ h => h
    intro x hx
    obtain ⟨r, hr, hxr⟩ := exists_of_mem_grow hx
    rw [hxr]
    exact howns r hr
  · rw [if_neg hne, hnone]
    exact ⟨hgrow, rfl⟩

/-- The header becomes the first node of the list. -/
lemma FreeList.push {m : ByteMemory.Mem} {h p n : ℕ} (hl : FreeList m h l 0) (hn : n < 2147483648)
    (hapart : ∀ x ∈ l, Apart p x.start) (hh : h < 18446744073709551616) :
    FreeList (setNextAt (setSizeAt m p n) p h) p (⟨p, n⟩ :: l) 0 := by
  refine FreeList.cons.mpr ⟨rfl, ?_, ?_⟩
  · rw [sizeAt_setNextAt, sizeAt_setSizeAt _ _ (by omega) (by omega)]
  · rw [nextAt_setNextAt _ _ hh]
    exact hl.frame fun x hx => (SameRecord.setSizeAt (hapart x hx) _).trans
      (.setNextAt (hapart x hx) _)

lemma head_lt {m : ByteMemory.Mem} {h : ℕ} (hl : FreeList m h l 0)
    (hmax : ∀ x ∈ l, x.stop < 18446744073709551616) : h < 18446744073709551616 := by
  cases l with
  | nil => rw [FreeList.nil.mp hl]; omega
  | cons r l =>
    have := hmax r List.mem_cons_self
    rw [hl.start_eq]
    unfold Region.stop at this
    omega

theorem wp_hugePushNode {header size : ℕ} (hl : FreeList s.mem (s.var .head) l 0)
    (hown : F.Owns .freenode header 16) (hget : F.gets .head) (hset : F.sets .head)
    (hapart : ∀ x ∈ l, Apart header x.start) (hmax : ∀ x ∈ l, x.stop < 18446744073709551616)
    (hsize : size < 2147483648) :
    wp F.Allows (hugePushNode header size) s fun _ s' =>
      FreeList s'.mem (s'.var .head) (⟨header, size⟩ :: l) 0 ∧ s'.lock = s.lock := by
  unfold hugePushNode
  simp only [wp_bind, wp_writeSize hown, wp_getGlobal hget, wp_writePtr hown, wp_setGlobal hset,
    Store.setMem_mem, Store.setMem_var]
  exact ⟨hl.push hsize hapart (head_lt hl hmax), rfl⟩

/-- No free node ends at the header: it becomes a node that takes in `a`. -/
theorem wp_hugeMergeAfter {header size : ℕ} (hl : FreeList s.mem (s.var .head) l 0)
    (hown : F.Owns .freenode header 16) (howns : ∀ x ∈ l, F.Owns .freenode x.start 16)
    (hcount : l.length + 1 < loopBound) (hsep : Separated l) (hget : F.gets .head)
    (hset : F.sets .head) (hapart : ∀ x ∈ l, Apart header x.start)
    (hmax : ∀ x ∈ l, x.stop < 18446744073709551616) (ha : a ∈ l)
    (hsize : size + a.len < 2147483648) :
    wp F.Allows (hugeMergeAfter header size a.start) s fun _ s' =>
      FreeList s'.mem (s'.var .head) ((⟨header, size + a.len⟩ :: l).erase a) 0 ∧
        s'.lock = s.lock := by
  have haown := howns a ha
  set new : Region := ⟨header, size + a.len⟩ with hnew
  have hpush := hl.push hsize hapart (head_lt hl hmax)
  have hsep' : Separated (new :: l) := List.pairwise_cons.mpr ⟨hapart, hsep⟩
  have hna : new ≠ a := fun h => (hapart a ha).ne (congrArg Region.start h)
  have hcast : (size : ℤ) + a.len = ((size + a.len : ℕ) : ℤ) := by push_cast; rfl
  unfold hugeMergeAfter
  simp only [wp_bind, wp_readSize haown.toSees, hl.size a ha, hcast, wp_writeSize hown,
    wp_getGlobal hget, wp_writePtr hown, wp_setGlobal hset, Store.setMem_mem, Store.setMem_var]
  have howns' : ∀ x ∈ new :: l, F.Owns .freenode x.start 16 := by
    intro x hx
    rcases List.mem_cons.mp hx with rfl | hx
    · exact hown
    · exact howns x hx
  have hsees : ∀ x ∈ (new :: l).map Region.start, F.Sees .freenode x 16 := sees_starts howns'
  have hlen : ((new :: l).map Region.start).length < loopBound := by
    rw [List.length_map, List.length_cons]
    exact hcount
  have hpath := hpush.path
  have hnd := hsep'.nodup
  obtain ⟨l₀, q, l₂, hsplit, herase⟩ := exists_before (r := new) ha hsep.nodup_list
  have hqown := howns' q (by rw [hsplit]; simp)
  have hlast : ((l₀ ++ [q]).map Region.start).getLastD 0 = q.start := lastStart_concat l₀ q
  rw [hsplit, List.map_append, List.map_cons] at hpath hnd hsees hlen
  refine wp_predecessor_before hpath hnd hsees hlen ?_
  rw [hlast]
  simp only [wp_readPtr haown.toSees, wp_writePtr hqown, Store.setVar_mem, Store.setMem_mem]
  rw [hsplit, List.append_assoc, List.singleton_append] at hpush hsep'
  rw [List.erase_cons_tail (by simpa using hna), herase]
  exact ⟨hpush.unlink hsep', rfl⟩

/-- The huge branch of `kfree` on a block of `size` bytes whose header is intact. -/
theorem wp_kfreeHuge {cpu ptr size lo hi : ℕ} (hl : FreeList s.mem (s.var .head) l 0)
    (hlock : s.lock .heapLock = 0) (hF : F.locks .heapLock) (hcpu : F.locks (.pagelist cpu))
    (hget : F.gets .head) (hset : F.sets .head)
    (howns : ∀ x ∈ l, F.Owns .freenode x.start 16) (hcount : l.length + 1 < loopBound)
    (hlong : ∀ x ∈ l, headerBytes ≤ x.len) (ht : t = ⟨ptr - headerBytes, size + headerBytes⟩)
    (hptr : headerBytes ≤ ptr) (haround : Around l t [] lo hi) (hhi : hi < lo + 2147483648)
    (hmax : hi < 18446744073709551616) (hheader : F.Owns .header t.start 16)
    (hnode : F.Owns .freenode t.start 16) (hbytes : F.Owns .bytes t.start t.len)
    (hsize : sizeAt s.mem t.start = size)
    (hmagic : wordAt s.mem t.start = toWord hugeMagic) :
    wp F.Allows (kfreeHuge cpu ptr) s fun _ s' =>
      FreeList s'.mem (s'.var .head) (giveBack t l) 0 ∧
        s'.lock = (s.setLock (.pagelist cpu) 0).lock := by
  have hspan := haround.span
  have hts : t.start = ptr - headerBytes := by rw [ht]
  have htl : t.len = size + headerBytes := by rw [ht]
  have htstop : t.stop = ptr + size := by
    unfold Region.stop
    omega
  have hhb : headerBytes = 16 := rfl
  have hmaxl : ∀ x ∈ l, x.stop < 18446744073709551616 := fun x hx => by
    have := (haround.inside x hx).2
    omega
  have hapart : ∀ x ∈ l, Apart t.start x.start := fun x hx =>
    ((haround.apart x hx).apart (hlong x hx) (by omega)).symm
  have hsep : Separated l := haround.disj.imp_of_mem fun {x y} hx hy hd =>
    hd.apart (hlong x hx) (hlong y hy)
  have hsub : subPtr ptr headerBytes = t.start := by rw [hts]; exact subPtr_of_le hptr (by omega)
  have htoSize : toSize (sizeAt s.mem t.start) = size := by
    rw [hsize]
    exact toSize_natCast (by omega)
  have haddr : addPtr size headerBytes = t.len := by rw [htl]; exact addPtr_of_lt (by omega)
  have hstop : addPtr ptr size = ptr + size := addPtr_of_lt (by omega)
  have hmagic' : toInt (wordAt s.mem t.start) = hugeMagic := by
    rw [hmagic]
    exact toInt_toWord (by decide) (by decide)
  set s₁ := (s.setLock (.pagelist cpu) 0).setLock .heapLock 1 with hs₁
  -- releasing the heap lock at the end of each branch
  have hdone : ∀ (u : PmmState) (L : List Region), FreeList u.mem (u.var .head) L 0 ∧
      u.lock = s₁.lock → wp F.Allows (unlock .heapLock) u fun _ s' =>
        FreeList s'.mem (s'.var .head) L 0 ∧ s'.lock = (s.setLock (.pagelist cpu) 0).lock := by
    rintro u L ⟨hu, hul⟩
    rw [wp_unlock hF]
    refine ⟨hu, ?_⟩
    funext k
    simp only [Store.setLock_lock, hul, hs₁]
    split_ifs with h₁ h₂ <;> simp_all
  have hlock₁ : (s.setLock (.pagelist cpu) 0).lock .heapLock = 0 := by simpa using hlock
  set u := s₁.setMem (ByteMemory.fill s.mem t.start t.len 0) with hu
  have hlu : FreeList u.mem (u.var .head) l 0 := hl.frame fun x hx => .fill (by
    have hd := haround.apart x hx
    have hx16 := hlong x hx
    unfold Disj Region.stop at hd
    omega)
  have hsees : ∀ x ∈ l.map Region.start, F.Sees .freenode x 16 := sees_starts howns
  unfold kfreeHuge
  simp only [wp_bind, wp_unlock hcpu, wp_lock hF hlock₁, wp_getGlobal hget, hsub,
    wp_readMagic hheader.toSees, wp_readSize hheader.toSees, wp_check, Store.setLock_mem, hmagic',
    true_and, htoSize, haddr, wp_memset0 hbytes]
  rw [← hs₁, ← hu]
  refine wp_neighbours hlu.path hsees (by rw [List.length_map]; omega) fun b' a' hb' ha' => ?_
  rw [← List.append_nil (l.map Region.start)] at hb' ha'
  have hbelow := haround.below_cases
    (fun r hr => hlu.stopAt_eq hr (hmaxl r hr)) (by simp) hb'
  have habove := haround.above_cases (by simp) ha'
  rw [htstop] at habove
  have hcount' : l.length < loopBound := by omega
  refine wp_endsAt (fun hp => ?_) ?_
  · rcases hb' with ⟨rfl, -⟩ | ⟨hmem, -⟩
    · exact absurd rfl hp
    · exact hsees b' (by simpa using hmem)
  · unfold giveBack
    rcases hbelow with ⟨b, hb, rfl⟩ | ⟨hnone, hne⟩
    · obtain ⟨hbmem, hbt⟩ := touchingBelow_some hb
      have hmerge : b.start ≠ 0 ∧ stopAt u.mem b.start = t.start :=
        ⟨(howns b hbmem).ne_null, by rw [hlu.stopAt_eq hbmem (hmaxl b hbmem), hbt]⟩
      have htb : t = ⟨b.stop, size + headerBytes⟩ := by rw [hbt, ← htl]
      rw [hb]
      simp only [hmerge, ne_eq, not_false_eq_true, and_self, decide_true, if_true, wp_bind]
      rw [htb] at habove
      refine wp_post (wp_hugeMergeBefore hlu howns hcount' hsep hget hset haround.pos
        haround.inside hhi hmax hbmem (by rw [hbt, hts]; exact Nat.sub_add_cancel hptr)
        (by rw [← htstop]; exact hspan.2) habove) fun _ v hv => ?_
      refine hdone v _ ?_
      rw [htb]
      revert hv
      cases touchingAbove l ⟨b.stop, size + headerBytes⟩ <;> exact id
    · have hmerge : ¬ (b' ≠ 0 ∧ stopAt u.mem b' = t.start) := fun h => hne.elim h.1 fun h' => h' h.2
      rw [hnone]
      simp only [hmerge, decide_false, if_false, hstop, Bool.false_eq_true]
      have hlen : t.len - headerBytes = size := by omega
      rcases habove with ⟨a, ha, rfl, heq⟩ | ⟨hnone', hne'⟩
      · obtain ⟨hamem, hat⟩ := touchingAbove_some ha
        have hain := haround.inside a hamem
        unfold Region.stop at hain
        rw [ha, if_pos heq, wp_bind]
        refine wp_post (wp_hugeMergeAfter hlu hnode howns hcount hsep hget hset hapart hmaxl hamem
          (by omega)) fun _ v hv => hdone v _ ?_
        rw [hlen]
        exact hv
      · rw [hnone', if_neg hne', wp_bind]
        refine wp_post (wp_hugePushNode hlu hnode hget hset hapart hmaxl (by omega))
          fun _ v hv => hdone v _ ?_
        rw [hlen]
        exact hv

end Huge
section Regions

variable {l : List Region} {t r : Region} {lo hi : ℕ}

/-- The node that `giveBack` makes: the joined region, short of the header's bytes
when no free node ends at the header. -/
def givenBack (t : Region) (l : List Region) : Region :=
  match touchingBelow l t, touchingAbove l t with
  | some b, some a => ⟨b.start, b.len + (t.len + a.len)⟩
  | some b, none => ⟨b.start, b.len + t.len⟩
  | none, some a => ⟨t.start, t.len - headerBytes + a.len⟩
  | none, none => ⟨t.start, t.len - headerBytes⟩

/-- A node of the new list starts where an old one does, or where `t` does. -/
theorem exists_of_mem_giveBack {q : Region} (hq : q ∈ giveBack t l) :
    q.start = t.start ∨ ∃ r ∈ l, q.start = r.start := by
  unfold giveBack at hq
  split at hq
  · exact .inr (exists_of_mem_grow (List.mem_of_mem_erase hq))
  · exact .inr (exists_of_mem_grow hq)
  · obtain rfl | hq := List.mem_cons.mp (List.mem_of_mem_erase hq)
    · exact .inl rfl
    · exact .inr ⟨q, hq, rfl⟩
  · obtain rfl | hq := List.mem_cons.mp hq
    · exact .inl rfl
    · exact .inr ⟨q, hq, rfl⟩

theorem giveBack_perm (h : Around l t [] lo hi) :
    (giveBack t l).Perm (givenBack t l :: others t l) := by
  have hnd := h.nodup
  unfold giveBack givenBack others
  cases hb : touchingBelow l t with
  | some b =>
    obtain ⟨hbm, hbt⟩ := touchingBelow_some hb
    cases ha : touchingAbove l t with
    | some a =>
      obtain ⟨ham, hat⟩ := touchingAbove_some ha
      have hpos := h.len
      have hperm := (grow_perm (t.len + a.len) hnd hbm).erase a
      rw [List.erase_cons_tail] at hperm
      · exact hperm
      · simp only [beq_iff_eq]
        intro heq
        have := congrArg Region.start heq
        unfold Region.stop at *
        simp only at this
        omega
    | none => exact grow_perm _ hnd hbm
  | none =>
    cases ha : touchingAbove l t with
    | some a =>
      obtain ⟨ham, hat⟩ := touchingAbove_some ha
      have hpos := h.len
      simp only
      rw [List.erase_cons_tail]
      simp only [beq_iff_eq]
      intro heq
      have := congrArg Region.start heq
      unfold Region.stop at hat
      simp only at this
      omega
    | none => exact List.Perm.refl _

theorem givenBack_within (t : Region) (l : List Region) :
    (givenBack t l).Within (joined t l) := by
  unfold givenBack joined Within
  cases touchingBelow l t <;> cases touchingAbove l t <;> simp only [Region.stop] <;> omega

/-- The joined region spans the freed one and the regions that touch it. -/
theorem joined_bounds (h : Around l t [] lo hi) :
    lo ≤ (joined t l).start ∧ (joined t l).stop ≤ hi := by
  have hspan := h.span
  unfold joined
  split
  · next b a hb ha =>
    obtain ⟨hbm, hbt⟩ := touchingBelow_some hb
    obtain ⟨ham, hat⟩ := touchingAbove_some ha
    have h₁ := h.inside b hbm
    have h₂ := h.inside a ham
    unfold Region.stop at *
    simp only
    omega
  · next b hb _ =>
    obtain ⟨hbm, hbt⟩ := touchingBelow_some hb
    have h₁ := h.inside b hbm
    unfold Region.stop at *
    simp only
    omega
  · next a _ ha =>
    obtain ⟨ham, hat⟩ := touchingAbove_some ha
    have h₂ := h.inside a ham
    unfold Region.stop at *
    simp only
    omega
  · exact hspan

theorem givenBack_long (h : ∀ r ∈ l, headerBytes ≤ r.len) (ht : 2 * headerBytes ≤ t.len) :
    headerBytes ≤ (givenBack t l).len := by
  unfold givenBack
  cases hb : touchingBelow l t with
  | some b =>
    have := h b (touchingBelow_some hb).1
    cases touchingAbove l t <;> simp only <;> omega
  | none => cases touchingAbove l t <;> simp only <;> omega

end Regions
end KmallocKfree
