import UBoot.NfsCopies

namespace UBoot.Nfs

open Cells FlashCells List Words

variable {n i len : Nat} {r r' : Receiver} {stack : Buffer rpcSize} {pkt rpc xs : List UInt8} {b : Buffer n}

theorem Buffer.exists_put : (∃ b', b.put i xs = some b') ↔ i + xs.length ≤ n := by
  unfold Buffer.put
  split
  next h => exact iff_of_true ⟨_, rfl⟩ h
  next h => exact iff_of_false (fun ⟨_, hnone⟩ => nomatch hnone) h

theorem Buffer.put_eq {b' : Buffer n} (h : b.put i xs = some b') : i + xs.length ≤ n ∧ b'.1 = splice b.1 i xs := by
  unfold Buffer.put at h
  split at h
  next hfit =>
    cases h
    exact ⟨hfit, rfl⟩
  · cases h

theorem rpcPkt_some (hlen : len ≤ rpcSize) (hin : len ≤ pkt.length) :
    rpcPkt stack pkt len = some (rpcOf stack pkt len) := by
  have hload : loadAll pkt 0 len = some (pkt.take len) := loadAll_of_loads (.inr (by omega))
  have htake : (pkt.take len).length = len := length_take_of_le hin
  obtain ⟨b', hput⟩ : ∃ b', stack.put 0 (pkt.take len) = some b' := Buffer.exists_put.mpr (by omega)
  obtain ⟨_, hsplice⟩ := Buffer.put_eq hput
  unfold rpcPkt
  rw [hload]
  simp only [Option.bind_eq_bind, Option.bind_some]
  rw [hput, Option.bind_some, hsplice, splice, take_zero, nil_append, htake, zero_add, rpcOf]

theorem rpcPkt_none (h : ¬(len ≤ rpcSize ∧ len ≤ pkt.length)) : rpcPkt stack pkt len = none := by
  unfold rpcPkt
  rcases hload : loadAll pkt 0 len with _ | xs
  · rfl
  obtain ⟨hreads, hxs, hlen⟩ := loadAll_some hload
  have hbig : ¬0 + xs.length ≤ rpcSize := by
    rcases hreads with rfl | hin
    · exact absurd ⟨Nat.zero_le _, Nat.zero_le _⟩ h
    · omega
  rcases hput : stack.put 0 xs with _ | b'
  · simp only [Option.bind_eq_bind, Option.bind_some, hput]
    rfl
  · exact absurd (Buffer.exists_put.mp ⟨b', hput⟩) hbig

theorem rpcPkt_all : rpcPkt stack pkt pkt.length =
    if pkt.length ≤ rpcSize then some (rpcOf stack pkt pkt.length) else none := by
  split
  next h => exact rpcPkt_some h le_rfl
  next h => exact rpcPkt_none fun hboth => h hboth.1

theorem be32_rpcOf (h : i + 4 ≤ len) (hin : len ≤ pkt.length) :
    be32 (bytesAt (rpcOf stack pkt len)) i = be32 (bytesAt pkt) i := by
  have hbyte : ∀ j, j < len → bytesAt (rpcOf stack pkt len) j = bytesAt pkt j := by
    intro j hj
    have htake : (pkt.take len).length = len := length_take_of_le hin
    unfold bytesAt rpcOf
    rw [getD_append _ _ _ _ (by omega), getD_eq_getElem?_getD, getD_eq_getElem?_getD,
      List.getElem?_take_of_lt hj]
  unfold be32 be16
  rw [hbyte i (by omega), hbyte (i + 1) (by omega), hbyte (i + 2) (by omega), hbyte (i + 2 + 1) (by omega)]

theorem header_rpcOf (hlen : 28 ≤ len) (hin : len ≤ pkt.length) :
    replyId (rpcOf stack pkt len) = replyId pkt ∧ (refused (rpcOf stack pkt len) ↔ refused pkt) ∧
      data (rpcOf stack pkt len) 0 = data pkt 0 := by
  have hword : ∀ i, i + 4 ≤ 28 → be32 (bytesAt (rpcOf stack pkt len)) i = be32 (bytesAt pkt) i :=
    fun i hi => be32_rpcOf (hi.trans hlen) hin
  unfold replyId refused rstatus verifier astatus data
  rw [hword 0 (by decide), hword 8 (by decide), hword 12 (by decide), hword 20 (by decide), hword 24 (by decide)]
  exact ⟨rfl, Iff.rfl, rfl⟩

theorem rejects_rpcOf (hlen : 28 ≤ len) (hin : len ≤ pkt.length) :
    r.Rejects (rpcOf stack pkt len) ↔ r.Rejects pkt := by
  obtain ⟨hid, hrefused, hstatus⟩ := @header_rpcOf _ stack pkt hlen hin
  unfold Receiver.Rejects
  rw [hid, hrefused, hstatus]

theorem handle_iff {f : Buffer nfsFhsize → Receiver} (fh : Buffer nfsFhsize) :
    (∃ r', (do some (f (← fh.put 0 (← loadAll pkt 28 nfsFhsize)))) = some r') ↔ 60 ≤ pkt.length := by
  constructor
  · rintro ⟨r', h⟩
    obtain ⟨xs, hxs, _⟩ := Option.bind_eq_some_iff.mp h
    exact (loadAll_some hxs).1.resolve_left (by decide)
  · intro h
    have hload : loadAll pkt 28 nfsFhsize = some _ := loadAll_of_loads (.inr h)
    obtain ⟨fh', hput⟩ : ∃ fh', fh.put 0 ((pkt.drop 28).take nfsFhsize) = some fh' :=
      Buffer.exists_put.mpr (by rw [(loadAll_some hload).2.2]; decide)
    rw [hload]
    simp only [Option.bind_eq_bind, Option.bind_some]
    rw [hput]
    exact ⟨_, rfl⟩

theorem readlinkPath_iff (path : Buffer 2048) (hlen : pkt.length ≤ rpcSize) :
    (∃ p, readlinkPath path rpc pkt = some p) ↔ LinkFits path rpc pkt := by
  unfold readlinkPath LinkFits
  by_cases hreads : Loads pkt 32 (data rpc 1)
  swap
  · refine iff_of_false ?_ fun h => hreads h.1
    rintro ⟨p, hp⟩
    dsimp only at hp
    split at hp
    · obtain ⟨_, _, hp⟩ := Option.bind_eq_some_iff.mp hp
      obtain ⟨_, _, hp⟩ := Option.bind_eq_some_iff.mp hp
      rw [loadAll_none hreads] at hp
      cases hp
    · rw [loadAll_none hreads] at hp
      cases hp
  have hload := loadAll_of_loads hreads
  have htext := (loadAll_some hload).2.2
  dsimp only
  rw [hload]
  simp only [Option.bind_eq_bind, Option.bind_some]
  split
  next hrel =>
    rw [and_iff_right hreads]
    constructor
    · rintro ⟨p, hp⟩ _
      obtain ⟨pathlen, hend, hp⟩ := Option.bind_eq_some_iff.mp hp
      obtain ⟨p₁, _, hp⟩ := Option.bind_eq_some_iff.mp hp
      obtain ⟨p₂, _, hp⟩ := Option.bind_eq_some_iff.mp hp
      exact ⟨pathlen, hend, Buffer.exists_put.mp ⟨p, hp⟩⟩
    · intro h
      obtain ⟨pathlen, hend, hroom⟩ := h hrel
      obtain ⟨p₁, hp₁⟩ : ∃ p₁, path.put pathlen [slash, 0] = some p₁ :=
        Buffer.exists_put.mpr (show pathlen + 2 ≤ 2048 by omega)
      obtain ⟨p₂, hp₂⟩ : ∃ p₂, p₁.put (pathlen + 1) ((pkt.drop 32).take (data rpc 1)) = some p₂ :=
        Buffer.exists_put.mpr (by omega)
      rw [hend, Option.bind_some, hp₁, Option.bind_some, hp₂, Option.bind_some]
      exact Buffer.exists_put.mpr hroom
  next habs =>
    have hroom : data rpc 1 < 2048 := by
      unfold rpcSize at hlen
      rcases hreads with h | h <;> omega
    obtain ⟨p₁, hp₁⟩ : ∃ p₁, path.put 0 ((pkt.drop 32).take (data rpc 1)) = some p₁ :=
      Buffer.exists_put.mpr (by omega)
    rw [hp₁, Option.bind_some]
    refine iff_of_true (Buffer.exists_put.mpr ?_) ⟨hreads, fun h => absurd h habs⟩
    exact hroom

theorem exists_bind_rpc {f : List UInt8 → Option Receiver} :
    (∃ r', (rpcPkt stack pkt pkt.length >>= f) = some r') ↔
      pkt.length ≤ rpcSize ∧ ∃ r', f (rpcOf stack pkt pkt.length) = some r' := by
  rw [rpcPkt_all]
  split
  next hlen =>
    rw [and_iff_right hlen]
    exact Iff.rfl
  next hlen => exact iff_of_false (fun ⟨_, hnone⟩ => nomatch hnone) fun h => hlen h.1

theorem exists_unless {x : Option Receiver} : (∃ r', (if r.Rejects rpc then some r else x) = some r') ↔
    (¬r.Rejects rpc → ∃ r', x = some r') := by
  split
  next hbad => exact iff_of_true ⟨r, rfl⟩ fun hok => absurd hbad hok
  next hok => exact ⟨fun h _ => h, fun h => h hok⟩

theorem rpcLookupReply_iff : (∃ r', r.rpcLookupReply stack pkt = some r') ↔ pkt.length ≤ rpcSize :=
  exists_bind_rpc.trans (and_iff_left ⟨r, rfl⟩)

theorem umountallReply_iff : (∃ r', r.umountallReply stack pkt = some r') ↔ pkt.length ≤ rpcSize := by
  refine exists_bind_rpc.trans (and_iff_left ?_)
  split
  · exact ⟨_, rfl⟩
  · exact ⟨_, rfl⟩

theorem mountReply_iff : (∃ r', r.mountReply stack pkt = some r') ↔
    pkt.length ≤ rpcSize ∧ (¬r.Rejects (rpcOf stack pkt pkt.length) → 60 ≤ pkt.length) :=
  exists_bind_rpc.trans (and_congr_right fun _ => exists_unless.trans (imp_congr_right fun _ => handle_iff r.dirfh))

theorem lookupReply_iff : (∃ r', r.lookupReply stack pkt = some r') ↔
    pkt.length ≤ rpcSize ∧ (¬r.Rejects (rpcOf stack pkt pkt.length) → 60 ≤ pkt.length) :=
  exists_bind_rpc.trans (and_congr_right fun _ => exists_unless.trans (imp_congr_right fun _ => handle_iff r.filefh))

theorem readlinkReply_iff : (∃ r', r.readlinkReply stack pkt = some r') ↔ pkt.length ≤ rpcSize ∧
    (¬r.Rejects (rpcOf stack pkt pkt.length) → LinkFits r.path (rpcOf stack pkt pkt.length) pkt) := by
  refine exists_bind_rpc.trans (and_congr_right fun hlen => exists_unless.trans (imp_congr_right fun _ => ?_))
  rw [← readlinkPath_iff r.path hlen]
  constructor
  · rintro ⟨_, h⟩
    obtain ⟨path, hpath, _⟩ := Option.bind_eq_some_iff.mp h
    exact ⟨path, hpath⟩
  · rintro ⟨path, hpath⟩
    rw [hpath]
    exact ⟨_, rfl⟩

theorem readReply_iff : (∃ r', r.readReply stack pkt = some r') ↔
    replySize ≤ pkt.length ∧ (¬r.Rejects pkt → replySize + data pkt 18 ≤ pkt.length) := by
  unfold Receiver.readReply
  by_cases hin : replySize ≤ pkt.length
  swap
  · rw [rpcPkt_none fun h => hin h.2]
    exact iff_of_false (fun ⟨_, hnone⟩ => nomatch hnone) fun h => hin h.1
  have hdata : data (rpcOf stack pkt replySize) 18 = data pkt 18 := be32_rpcOf (by decide) hin
  rw [rpcPkt_some (by decide) hin, and_iff_right hin, ← @rejects_rpcOf _ r stack _ (by decide) hin]
  refine exists_unless.trans (imp_congr_right fun _ => ?_)
  rw [hdata]
  constructor
  · rintro ⟨_, h⟩
    obtain ⟨_, hload, _⟩ := Option.bind_eq_some_iff.mp h
    rcases (loadAll_some hload).1 with hzero | hfit
    · rw [hzero]
      exact hin
    · exact hfit
  · intro h
    rw [loadAll_of_loads (.inr h)]
    exact ⟨_, rfl⟩

/-- The handler copies only bytes of the packet, and only to where they belong, exactly if they fit. -/
theorem nfs_copies_inside_iff (r : Receiver) (stack : Buffer rpcSize) (pkt : List UInt8) :
    (∃ r', r.nfsHandler stack pkt = some r') ↔ r.Fits stack pkt := by
  unfold Receiver.nfsHandler Receiver.Fits
  cases r.state with
  | prclookupProgMountReq => exact rpcLookupReply_iff
  | prclookupProgNfsReq => exact rpcLookupReply_iff
  | mountReq => exact mountReply_iff
  | umountReq => exact umountallReply_iff
  | lookupReq => exact lookupReply_iff
  | readReq => exact readReply_iff
  | readlinkReq => exact readlinkReply_iff

/-- The receiver is the client as its decoders see it. -/
structure Receiver.Of (r : Receiver) (s : Client) : Prop where
  state : r.state = s.state
  rpcId : r.rpcId = Nfs.rpcId s.sent.length
  nfsOffset : r.nfsOffset = s.nfsOffset
  dirfh : r.dirfh.1 = s.dirfh
  filefh : r.filefh.1 = s.filefh
  path : cstrAt r.path.1 0 = some s.path
  mem : r.mem = s.mem

/-- The client has what was copied. A path that came in is taken apart then. -/
structure Receiver.Copied (r : Receiver) (s : Client) : Prop where
  dirfh : r.dirfh.1 = s.dirfh
  filefh : r.filefh.1 = s.filefh
  mem : r.mem = s.mem
  path : ∃ text, cstrAt r.path.1 0 = some text ∧ (s.path = text ∨ (s.path, s.filename) = splitPath text)

section
variable {s : Client}

theorem Receiver.Copied.send (h : r.Copied s) : r.Copied s.send := by
  unfold Client.send
  cases s.state with
  | umountReq =>
    dsimp only
    split
    · exact h
    · exact ⟨h.dirfh, h.filefh, h.mem, h.path⟩
  | _ => exact ⟨h.dirfh, h.filefh, h.mem, h.path⟩

theorem Receiver.Copied.port (h : r.Copied s) (prog : Nat) : r.Copied (s.rpcLookupReply prog pkt) := by
  unfold Client.rpcLookupReply
  split
  · exact h
  · split
    · exact ⟨h.dirfh, h.filefh, h.mem, h.path⟩
    · exact ⟨h.dirfh, h.filefh, h.mem, h.path⟩

theorem Receiver.Of.copied (h : r.Of s) : r.Copied s := ⟨h.dirfh, h.filefh, h.mem, _, h.path, .inl rfl⟩

theorem put_whole {fh fh' : Buffer n} (hlen : xs.length = n) (h : fh.put 0 xs = some fh') : fh'.1 = xs := by
  rw [(Buffer.put_eq h).2, splice, take_zero, nil_append, zero_add, hlen,
    drop_eq_nil_of_le (le_of_eq fh.2), append_nil]

theorem loadAll_read {a k : Nat} (h : loadAll pkt a k = some xs) : xs = read (bytesAt pkt) a k := by
  obtain ⟨hloads, rfl, hlen⟩ := loadAll_some h
  refine ext_getElem (by simpa [FlashCells.read] using hlen) fun i hi _ => ?_
  have hat : a + i < pkt.length := by simp at hi; omega
  simp [FlashCells.read, bytesAt, getD_eq_getElem?_getD, hat]

theorem splice_at (p q xs : List UInt8) : splice (p ++ q) p.length xs = p ++ xs ++ q.drop xs.length := by
  unfold splice
  rw [take_left, drop_append, drop_eq_nil_of_le (by omega), nil_append, Nat.add_sub_cancel_left]

/-- The path that a link leads to, of the directory in the buffer where it does not begin with a slash. -/
theorem readlinkPath_text {path path' : Buffer 2048} {dir : Text} (hdir : cstrAt path.1 0 = some dir)
    (hlen : 32 ≤ pkt.length) (hne : data pkt 1 ≠ 0) (hnul : (0 : UInt8) ∉ read (bytesAt pkt) 32 (data pkt 1))
    (h : readlinkPath path (rpcOf stack pkt pkt.length) pkt = some path') :
    ∃ text, cstrAt path'.1 0 = some text ∧ followLink dir (read (bytesAt pkt) 32 (data pkt 1)) = splitPath text := by
  have hdata : data (rpcOf stack pkt pkt.length) 1 = data pkt 1 := be32_rpcOf hlen le_rfl
  obtain ⟨hdirNul, t, ht⟩ := cstrAt_some hdir
  rw [drop_zero] at ht
  have hpathlen : strEnd path.1 0 = some dir.length := by rw [ht, strEnd_append hdirNul, zero_add]
  have hhead {xs : List UInt8} (hload : loadAll pkt 32 (data pkt 1) = some xs) :
      xs.head? = some slash ↔ (rpcOf stack pkt pkt.length).getD 32 0 = slash := by
    obtain ⟨hloads, rfl, _⟩ := loadAll_some hload
    have hin : 32 < pkt.length := by
      have hend := hloads.resolve_left hne
      omega
    obtain ⟨k, hk⟩ : ∃ k, data pkt 1 = k + 1 := ⟨data pkt 1 - 1, by omega⟩
    rw [hk, drop_eq_getElem_cons hin, take_succ_cons, List.head?_cons, rpcOf, take_length,
      getD_append _ _ _ _ hin, getD_eq_getElem _ _ hin]
    exact Option.some_inj
  unfold readlinkPath at h
  rw [hdata] at h
  by_cases hrel : (rpcOf stack pkt pkt.length).getD 32 0 ≠ slash
  · rw [if_pos hrel, hpathlen] at h
    obtain ⟨_, ⟨⟩, h⟩ := Option.bind_eq_some_iff.mp h
    obtain ⟨p₁, hp₁, h⟩ := Option.bind_eq_some_iff.mp h
    obtain ⟨xs, hload, h⟩ := Option.bind_eq_some_iff.mp h
    obtain ⟨p₂, hp₂, h⟩ := Option.bind_eq_some_iff.mp h
    have hxs := (loadAll_some hload).2.2
    have h₁ : p₁.1 = dir ++ [slash] ++ 0 :: (0 :: t).drop 2 := by
      rw [(Buffer.put_eq hp₁).2, ht, splice_at]
      simp
    have h₂ : p₂.1 = dir ++ [slash] ++ xs ++ (0 :: (0 :: t).drop 2).drop xs.length := by
      rw [(Buffer.put_eq hp₂).2, h₁, show dir.length + 1 = (dir ++ [slash]).length by simp, splice_at]
    have h₃ : path'.1 = dir ++ [slash] ++ xs ++ 0 :: ((0 :: (0 :: t).drop 2).drop xs.length).drop 1 := by
      have hat : dir.length + 1 + data pkt 1 = (dir ++ [slash] ++ xs).length := by
        simp [hxs]
        omega
      rw [(Buffer.put_eq h).2, h₂, hat, splice_at]
      simp
    have hnul' : (0 : UInt8) ∉ dir ++ [slash] ++ xs := by
      rw [loadAll_read hload]
      simp [hdirNul, hnul, slash]
    refine ⟨dir ++ [slash] ++ xs, ?_, ?_⟩
    · rw [h₃]
      exact cstrAt_append (p := []) hnul'
    · rw [← loadAll_read hload, followLink, if_neg (mt (hhead hload).mp hrel)]
  · rw [if_neg hrel] at h
    obtain ⟨xs, hload, h⟩ := Option.bind_eq_some_iff.mp h
    obtain ⟨p₁, hp₁, h⟩ := Option.bind_eq_some_iff.mp h
    have hxs := (loadAll_some hload).2.2
    have h₁ : p₁.1 = xs ++ path.1.drop xs.length := (Buffer.put_eq hp₁).2.trans (splice_at [] path.1 xs)
    have h₂ : path'.1 = xs ++ 0 :: (path.1.drop xs.length).drop 1 := by
      rw [(Buffer.put_eq h).2, h₁, ← hxs, splice_at]
      simp
    refine ⟨xs, ?_, ?_⟩
    · rw [h₂]
      exact cstrAt_append (p := []) (loadAll_read hload ▸ hnul)
    · rw [← loadAll_read hload, followLink, if_pos ((hhead hload).mpr (not_not.mp hrel))]

/-- What `nfsHandler` copies the client of the protocol has. -/
theorem handler_copies (h : r.Of s) (hgoing : s.idle = false) (hlen : 32 ≤ pkt.length)
    (hlink : s.state = .readlinkReq → data pkt 1 ≠ 0 ∧ (0 : UInt8) ∉ read (bytesAt pkt) 32 (data pkt 1))
    (hrun : r.nfsHandler stack pkt = some r') : r'.Copied (s.handler pkt) := by
  have hpkt {f : List UInt8 → Option Receiver} (hf : (rpcPkt stack pkt pkt.length >>= f) = some r') :
      pkt.length ≤ rpcSize ∧ f (rpcOf stack pkt pkt.length) = some r' := by
    rw [rpcPkt_all] at hf
    split at hf
    next hle => exact ⟨hle, hf⟩
    · cases hf
  have hrejects : r.Rejects pkt ↔ replyId pkt ≠ Nfs.rpcId s.sent.length ∨ refused pkt ∨ data pkt 0 ≠ 0 := by
    rw [Receiver.Rejects, h.rpcId]
  have haccept {len : Nat} {y : Option Receiver} (hmin : 28 ≤ len) (hin : len ≤ pkt.length)
      (hf : (if r.Rejects (rpcOf stack pkt len) then some r else y) = some r') :
      (r.Rejects pkt ∧ r' = r) ∨ ¬r.Rejects pkt ∧ y = some r' := by
    split at hf
    next hbad => exact .inl ⟨(rejects_rpcOf hmin hin).mp hbad, (Option.some.inj hf).symm⟩
    next hok => exact .inr ⟨mt (rejects_rpcOf hmin hin).mpr hok, hf⟩
  unfold Receiver.nfsHandler at hrun
  rw [h.state] at hrun
  unfold Client.handler
  rw [if_neg (by rw [hgoing]; exact Bool.false_ne_true)]
  cases hstate : s.state with
  | prclookupProgMountReq =>
    rw [hstate] at hrun
    obtain ⟨_, hf⟩ := hpkt hrun
    cases hf
    have hport := @Receiver.Copied.port _ pkt _ h.copied progMount
    exact Receiver.Copied.send ⟨hport.dirfh, hport.filefh, hport.mem, hport.path⟩
  | prclookupProgNfsReq =>
    rw [hstate] at hrun
    obtain ⟨_, hf⟩ := hpkt hrun
    cases hf
    have hport := @Receiver.Copied.port _ pkt _ h.copied progNfs
    exact Receiver.Copied.send ⟨hport.dirfh, hport.filefh, hport.mem, hport.path⟩
  | mountReq =>
    rw [hstate] at hrun
    obtain ⟨_, hf⟩ := hpkt hrun
    dsimp only [Client.mountReply]
    rcases haccept (by omega) le_rfl hf with ⟨hbad, rfl⟩ | ⟨hok, hf⟩
    · rw [if_pos (hrejects.mp hbad), Option.elim_none]
      apply Receiver.Copied.send
      exact ⟨h.dirfh, h.filefh, h.mem, h.copied.path⟩
    · obtain ⟨xs, hload, hf⟩ := Option.bind_eq_some_iff.mp hf
      obtain ⟨fh, hput, hf⟩ := Option.bind_eq_some_iff.mp hf
      cases hf
      rw [if_neg (mt hrejects.mpr hok), Option.elim_some]
      apply Receiver.Copied.send
      refine ⟨?_, h.filefh, h.mem, h.copied.path⟩
      rw [put_whole (loadAll_some hload).2.2 hput, loadAll_read hload]
  | umountReq =>
    rw [hstate] at hrun
    obtain ⟨_, hf⟩ := hpkt hrun
    obtain ⟨hid, hrefused, -⟩ := @header_rpcOf _ stack pkt (by omega : 28 ≤ pkt.length) le_rfl
    dsimp only [Client.umountallReply]
    simp only [hid, hrefused, h.rpcId] at hf
    split at hf
    next hbad =>
      cases hf
      rw [if_pos hbad]
      exact ⟨h.dirfh, h.filefh, h.mem, h.copied.path⟩
    next hok =>
      cases hf
      rw [if_neg hok]
      exact ⟨rfl, h.filefh, h.mem, h.copied.path⟩
  | lookupReq =>
    rw [hstate] at hrun
    obtain ⟨_, hf⟩ := hpkt hrun
    dsimp only [Client.lookupReply]
    rcases haccept (by omega) le_rfl hf with ⟨hbad, rfl⟩ | ⟨hok, hf⟩
    · rw [if_pos (hrejects.mp hbad), Option.elim_none]
      apply Receiver.Copied.send
      exact ⟨h.dirfh, h.filefh, h.mem, h.copied.path⟩
    · obtain ⟨xs, hload, hf⟩ := Option.bind_eq_some_iff.mp hf
      obtain ⟨fh, hput, hf⟩ := Option.bind_eq_some_iff.mp hf
      cases hf
      rw [if_neg (mt hrejects.mpr hok), Option.elim_some]
      apply Receiver.Copied.send
      refine ⟨h.dirfh, ?_, h.mem, h.copied.path⟩
      rw [put_whole (loadAll_some hload).2.2 hput, loadAll_read hload]
  | readReq =>
    rw [hstate] at hrun
    have hin : replySize ≤ pkt.length := (readReply_iff.mp ⟨r', hrun⟩).1
    have hdata : data (rpcOf stack pkt replySize) 18 = data pkt 18 := be32_rpcOf (by decide) hin
    unfold Receiver.readReply at hrun
    rw [rpcPkt_some (by decide) hin] at hrun
    have hcopied : r'.Copied (s.readReply pkt).2 := by
      unfold Client.readReply
      rcases haccept (by decide) hin hrun with ⟨hbad, rfl⟩ | ⟨hok, hf⟩
      · split
        · exact h.copied
        next hid =>
          rw [if_pos ((hrejects.mp hbad).resolve_left hid)]
          split
          · exact h.copied
          · exact h.copied
      · obtain ⟨xs, hload, hf⟩ := Option.bind_eq_some_iff.mp hf
        obtain ⟨hid, hgood⟩ := not_or.mp (mt hrejects.mpr hok)
        cases hf
        rw [if_neg hid, if_neg hgood]
        refine ⟨h.dirfh, h.filefh, ?_, h.copied.path⟩
        rw [hdata] at hload
        rw [loadAll_read hload, h.mem, h.nfsOffset]
        rfl
    dsimp only
    split
    · exact Receiver.Copied.send ⟨hcopied.dirfh, hcopied.filefh, hcopied.mem, hcopied.path⟩
    · split
      · exact Receiver.Copied.send ⟨hcopied.dirfh, hcopied.filefh, hcopied.mem, hcopied.path⟩
      · exact Receiver.Copied.send ⟨hcopied.dirfh, hcopied.filefh, hcopied.mem, hcopied.path⟩
  | readlinkReq =>
    rw [hstate] at hrun
    obtain ⟨_, hf⟩ := hpkt hrun
    obtain ⟨hne, hnul⟩ := hlink hstate
    dsimp only [Client.readlinkReply]
    rcases haccept (by omega) le_rfl hf with ⟨hbad, rfl⟩ | ⟨hok, hf⟩
    · rw [if_pos (hrejects.mp hbad), Option.elim_none]
      apply Receiver.Copied.send
      exact ⟨h.dirfh, h.filefh, h.mem, h.copied.path⟩
    · obtain ⟨path, hpath, hf⟩ := Option.bind_eq_some_iff.mp hf
      cases hf
      obtain ⟨text, htext, hsplit⟩ := readlinkPath_text h.path hlen hne hnul hpath
      rw [if_neg (mt hrejects.mpr hok), Option.elim_some]
      apply Receiver.Copied.send
      exact ⟨h.dirfh, h.filefh, h.mem, text, htext, .inr hsplit⟩
end

def reading : Receiver where
  state := .readReq
  rpcId := 0
  nfsOffset := 0
  dirfh := zeros
  filefh := zeros
  path := zeros
  mem := fun _ => 0xff

def emptyRead : List UInt8 := List.replicate 99 0 ++ [1]

/-- The byte behind the packet is copied. -/
theorem missing_data_copied : ¬∀ (r : Receiver) (stack : Buffer rpcSize) (pkt : List UInt8),
    ∃ r', r.nfsHandler stack pkt = some r' := by
  intro h
  obtain ⟨r', hrun⟩ := h reading zeros emptyRead
  have hfits := (readReply_iff.mp ⟨r', hrun⟩).2 (by decide +kernel)
  exact absurd hfits (by decide +kernel)

end UBoot.Nfs
