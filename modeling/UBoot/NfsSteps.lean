import UBoot.NfsServer

namespace UBoot.Nfs

open FlashCells Words

/-- The request that `NfsSend` makes in a state. -/
def Client.call (s : Client) : Call :=
  match s.state with
  | .prclookupProgMountReq => .getport progMount
  | .prclookupProgNfsReq => .getport progNfs
  | .mountReq => .mount s.path
  | .umountReq => .umountAll
  | .lookupReq => .lookup s.dirfh s.filename
  | .readReq => .read s.filefh s.nfsOffset s.nfsLen
  | .readlinkReq => .readlink s.filefh

/-- Memory up to the transferred size is the file that the path asks for. -/
def Client.Loaded (srv : Server) (path : Text) (s : Client) : Prop :=
  srv.Requested (splitPath path).1 (splitPath path).2 (read s.mem 0 s.xferSize)

/-- What a client has of the file its path asks for, whatever it has sent. -/
structure Client.Base (srv : Server) (path : Text) (s : Client) : Prop where
  chain : s.state ≠ .umountReq → ∀ bytes, srv.Requested s.path s.filename bytes →
    srv.Requested (splitPath path).1 (splitPath path).2 bytes
  mounted : s.state = .lookupReq ∨ s.state = .readReq ∨ s.state = .readlinkReq →
    srv.mount s.path = some s.dirfh
  found : s.state = .readReq ∨ s.state = .readlinkReq → srv.lookup s.dirfh s.filename = some s.filefh
  len : s.state = .readReq → s.nfsLen = nfsReadSize
  empty : s.state ≠ .readReq → s.state ≠ .umountReq → s.xferSize = 0
  part : s.state = .readReq → ∀ bytes, srv.node s.filefh = .file bytes →
    s.nfsOffset ≤ bytes.length ∧ read s.mem 0 s.nfsOffset = bytes.take s.nfsOffset ∧ s.xferSize = s.nfsOffset
  none : s.state = .readReq → (∀ bytes, srv.node s.filefh ≠ .file bytes) → s.xferSize = 0
  done : s.downloadState = .success → s.state = .umountReq ∧ s.Loaded srv path
  success : s.netState = .success → s.downloadState = .success

/-- The latest request is the one of the state. -/
structure Client.Inv (srv : Server) (path : Text) (s : Client) : Prop extends s.Base srv path where
  latest : s.state ≠ .umountReq → s.sent.getLast? = some s.call

section
variable {srv : Server} {path : Text} {s : Client} {pkt body : List UInt8} {k : Nat}

theorem Client.send_eq (h : s.state ≠ .umountReq) : s.send = s.rpcReq s.call := by
  unfold Client.send Client.call
  cases hs : s.state with
  | umountReq => exact absurd hs h
  | _ => rfl

theorem Client.send_umount (h : s.state = .umountReq) : s.send = s ∨ s.send = s.rpcReq .umountAll := by
  simp only [Client.send, h]
  split
  · exact .inl rfl
  · exact .inr rfl

theorem Client.Base.rpcReq (h : s.Base srv path) (call : Call) : (s.rpcReq call).Base srv path :=
  ⟨h.chain, h.mounted, h.found, h.len, h.empty, h.part, h.none, h.done, h.success⟩

theorem Client.Base.send (h : s.Base srv path) : s.send.Inv srv path := by
  by_cases hs : s.state = .umountReq
  · rcases Client.send_umount hs with heq | heq
    · rw [heq]
      exact ⟨h, fun hne => absurd hs hne⟩
    · rw [heq]
      exact ⟨h.rpcReq _, fun hne => absurd hs hne⟩
  · rw [Client.send_eq hs]
    exact ⟨h.rpcReq _, fun _ => List.getLast?_concat⟩

theorem Client.Base.over (hs : s.state = .umountReq)
    (hd : s.downloadState = .success → s.Loaded srv path)
    (hn : s.netState = .success → s.downloadState = .success) : s.Base srv path := by
  refine ⟨fun hne => absurd hs hne, ?_, ?_, ?_, fun _ hne => absurd hs hne, ?_, ?_,
    fun hsucc => ⟨hs, hd hsucc⟩, hn⟩
  · rintro (h | h | h) <;> (rw [hs] at h; cases h)
  · rintro (h | h) <;> (rw [hs] at h; cases h)
  · intro h
    rw [hs] at h
    cases h
  · intro h
    rw [hs] at h
    cases h
  · intro h
    rw [hs] at h
    cases h

theorem Client.Base.giveUp {t : Client} (h : s.Base srv path) (hs : s.state ≠ .umountReq)
    (ht : t.state = .umountReq) (hd : t.downloadState = s.downloadState)
    (hn : t.netState = s.netState) : t.Base srv path := by
  refine Client.Base.over ht ?_ ?_
  · intro hsucc
    exact absurd (h.done (hd.symm.trans hsucc)).1 hs
  · intro hsucc
    rw [hd]
    exact h.success (hn.symm.trans hsucc)

theorem start_inv (s : Client) (path : Text) : (s.start path).Inv srv path := by
  have hbase : ({ s with
      downloadState := .fail, path := (splitPath path).1, filename := (splitPath path).2,
      timeoutCount := 0, state := .prclookupProgMountReq, netState := .going,
      idle := false, xferSize := 0 } : Client).Base srv path := by
    refine ⟨fun _ _ h => h, ?_, ?_, ?_, fun _ _ => rfl, ?_, ?_, ?_, ?_⟩
    · rintro (h | h | h) <;> cases h
    · rintro (h | h) <;> cases h
    · exact nofun
    · exact nofun
    · exact nofun
    · exact nofun
    · exact nofun
  exact hbase.send

theorem timeout_inv (h : s.Inv srv path) (retry : Bool) : (s.timeout retry).Inv srv path := by
  have hbase : ({ s with timeoutCount := s.timeoutCount + 1 } : Client).Base srv path :=
    ⟨h.chain, h.mounted, h.found, h.len, h.empty, h.part, h.none, h.done, h.success⟩
  unfold Client.timeout
  dsimp only
  split
  · split
    · exact ⟨⟨h.chain, h.mounted, h.found, h.len, h.empty, h.part, h.none, h.done, h.success⟩, h.latest⟩
    · exact ⟨⟨h.chain, h.mounted, h.found, h.len, h.empty, h.part, h.none, h.done, nofun⟩, h.latest⟩
  · exact hbase.send

theorem Client.Base.early {t : Client} (h : s.Base srv path) (hs : s.state ≠ .umountReq)
    (ht : t.state = .prclookupProgNfsReq ∨ t.state = .mountReq)
    (hchain : ∀ bytes, srv.Requested t.path t.filename bytes →
      srv.Requested (splitPath path).1 (splitPath path).2 bytes)
    (hsize : t.xferSize = 0) (hd : t.downloadState = s.downloadState)
    (hn : t.netState = s.netState) : t.Base srv path := by
  have hdone : ¬s.downloadState = .success := fun hsucc => hs (h.done hsucc).1
  refine ⟨fun _ => hchain, ?_, ?_, ?_, fun _ _ => hsize, ?_, ?_, ?_, ?_⟩
  · rintro (h' | h' | h') <;> rcases ht with ht | ht <;> (rw [ht] at h'; cases h')
  · rintro (h' | h') <;> rcases ht with ht | ht <;> (rw [ht] at h'; cases h')
  · intro h'
    rcases ht with ht | ht <;> (rw [ht] at h'; cases h')
  · intro h'
    rcases ht with ht | ht <;> (rw [ht] at h'; cases h')
  · intro h'
    rcases ht with ht | ht <;> (rw [ht] at h'; cases h')
  · intro hsucc
    exact absurd (hd.symm.trans hsucc) hdone
  · intro hsucc
    rw [hd]
    exact h.success (hn.symm.trans hsucc)

theorem rpcLookupReply_frame (s : Client) (prog : Nat) (pkt : List UInt8) :
    (s.rpcLookupReply prog pkt).path = s.path ∧ (s.rpcLookupReply prog pkt).filename = s.filename ∧
      (s.rpcLookupReply prog pkt).xferSize = s.xferSize ∧
      (s.rpcLookupReply prog pkt).downloadState = s.downloadState ∧
      (s.rpcLookupReply prog pkt).netState = s.netState := by
  unfold Client.rpcLookupReply
  split
  · exact ⟨rfl, rfl, rfl, rfl, rfl⟩
  · split
    · exact ⟨rfl, rfl, rfl, rfl, rfl⟩
    · exact ⟨rfl, rfl, rfl, rfl, rfl⟩

theorem port_inv (h : s.Inv srv path) {next : Phase} {prog : Nat}
    (hs : s.state = .prclookupProgMountReq ∨ s.state = .prclookupProgNfsReq)
    (hnext : next = .prclookupProgNfsReq ∨ next = .mountReq) :
    ({ s.rpcLookupReply prog pkt with state := next } : Client).send.Inv srv path := by
  have hu : s.state ≠ .umountReq := by
    rcases hs with hs | hs <;> (rw [hs]; decide)
  have hr : s.state ≠ .readReq := by
    rcases hs with hs | hs <;> (rw [hs]; decide)
  obtain ⟨hp, hf, hx, hd, hn⟩ := rpcLookupReply_frame s prog pkt
  have hbase : ({ s.rpcLookupReply prog pkt with state := next } : Client).Base srv path := by
    refine h.toBase.early hu hnext ?_ (hx.trans (h.empty hr hu)) hd hn
    intro bytes hreq
    rw [hp, hf] at hreq
    exact h.chain hu bytes hreq
  exact hbase.send

theorem mount_inv (h : s.Inv srv path) (hs : s.state = .mountReq) {fh : Handle}
    (hfh : srv.mount s.path = some fh) :
    ({ s with fsMounted := true, dirfh := fh, state := .lookupReq } : Client).send.Inv srv path := by
  have hu : s.state ≠ .umountReq := by
    rw [hs]
    decide
  have hr : s.state ≠ .readReq := by
    rw [hs]
    decide
  have hbase : ({ s with fsMounted := true, dirfh := fh, state := .lookupReq } : Client).Base
      srv path := by
    refine ⟨fun _ => h.chain hu, fun _ => hfh, ?_, ?_, fun _ _ => h.empty hr hu, ?_, ?_, ?_, h.success⟩
    · rintro (h' | h') <;> cases h'
    · exact nofun
    · exact nofun
    · exact nofun
    · exact fun hsucc => absurd (h.done hsucc).1 hu
  exact hbase.send

theorem lookup_inv (h : s.Inv srv path) (hs : s.state = .lookupReq) {fh : Handle}
    (hfh : srv.lookup s.dirfh s.filename = some fh) :
    ({ s with filefh := fh, state := .readReq, nfsOffset := 0, nfsLen := nfsReadSize } :
      Client).send.Inv srv path := by
  have hu : s.state ≠ .umountReq := by
    rw [hs]
    decide
  have hr : s.state ≠ .readReq := by
    rw [hs]
    decide
  have hbase : ({ s with
      filefh := fh, state := .readReq, nfsOffset := 0, nfsLen := nfsReadSize } : Client).Base
      srv path := by
    refine ⟨fun _ => h.chain hu, fun _ => h.mounted (.inl hs), fun _ => hfh, fun _ => rfl, ?_,
      ?_, fun _ _ => h.empty hr hu, ?_, h.success⟩
    · exact fun hne => absurd rfl hne
    · exact fun _ bytes _ => ⟨Nat.zero_le _, rfl, h.empty hr hu⟩
    · exact fun hsucc => absurd (h.done hsucc).1 hu
  exact hbase.send

theorem readlink_inv (h : s.Inv srv path) (hs : s.state = .readlinkReq) {text : Text}
    (hnode : srv.node s.filefh = .link text) :
    ({ s with
      path := (followLink s.path text).1, filename := (followLink s.path text).2,
      state := .mountReq } : Client).send.Inv srv path := by
  have hu : s.state ≠ .umountReq := by
    rw [hs]
    decide
  have hr : s.state ≠ .readReq := by
    rw [hs]
    decide
  have hbase : ({ s with
      path := (followLink s.path text).1, filename := (followLink s.path text).2,
      state := .mountReq } : Client).Base srv path := by
    refine h.toBase.early hu (.inr rfl) ?_ (h.empty hr hu) rfl rfl
    intro bytes hreq
    exact h.chain hu bytes (.link (h.mounted (.inr (.inr hs))) (h.found (.inr hs)) hnode hreq)
  exact hbase.send

theorem readReply_cases (hlen : s.nfsLen = nfsReadSize)
    (hreply : rpcId (k + 1) = rpcId s.sent.length → srv.Reply (.read s.filefh s.nfsOffset s.nfsLen) body) :
    ((s.readReply (packet (k + 1) body)).2 = s ∧ (s.readReply (packet (k + 1) body)).1 < 0 ∧
        ((s.readReply (packet (k + 1) body)).1 = -nfserrIsdir ∨
            (s.readReply (packet (k + 1) body)).1 = -nfserrInval →
          ∀ bytes, srv.node s.filefh ≠ .file bytes)) ∨
      ∃ bytes part, srv.node s.filefh = .file bytes ∧ part <+: bytes.drop s.nfsOffset ∧
        (part = [] → bytes.length ≤ s.nfsOffset) ∧
        s.readReply (packet (k + 1) body) = ((part.length : Int), s.storeBlock part s.nfsOffset) := by
  unfold Client.readReply
  rw [replyId_packet]
  by_cases hid : (k + 1) % 4294967296 = rpcId s.sent.length
  · rw [if_neg (not_not.mpr hid)]
    rcases read_answer (hreply hid) (by rw [hlen]; decide) with hbad | ⟨hok, ⟨hne, hlt, hfile⟩ | hdata⟩
    · left
      rw [if_pos (.inl (refused_of hbad)), if_pos hbad]
      exact ⟨rfl, by dsimp only; omega, fun hcode => by simp [nfserrIsdir, nfserrInval] at hcode⟩
    · left
      rw [if_pos (.inr hne), if_neg (fun h => hok (refused_of h))]
      rw [Int.bmod_eq_of_le (by omega) (by omega)]
      refine ⟨rfl, by dsimp only; omega, ?_⟩
      intro hcode bytes hnode
      have hnot := hfile bytes hnode
      simp only [nfserrIsdir, nfserrInval] at hcode
      omega
    · right
      obtain ⟨h0, bytes, part, hnode, hstarts, hend, hcount, hlt, hread⟩ := hdata
      refine ⟨bytes, part, hnode, hstarts, hend, ?_⟩
      rw [if_neg (by
        rintro (h | h)
        · exact hok h
        · exact h h0)]
      rw [hcount, hread, Int.bmod_eq_of_le (by omega) (by omega)]
  · left
    rw [if_pos hid]
    exact ⟨rfl, by dsimp only; omega, fun hcode => by simp [nfserrIsdir, nfserrInval] at hcode⟩

theorem read_store_part {m : Flash} {bytes part : List UInt8} {offset : Nat}
    (hoff : offset ≤ bytes.length) (hread : read m 0 offset = bytes.take offset)
    (hpart : part <+: bytes.drop offset) :
    offset + part.length ≤ bytes.length ∧
      read (store m offset part) 0 (offset + part.length) = bytes.take (offset + part.length) := by
  have hle := hpart.length_le
  rw [List.length_drop] at hle
  refine ⟨by omega, ?_⟩
  rw [read_append, Nat.zero_add]
  have hfront : read (store m offset part) 0 offset = bytes.take offset := by
    rw [← hread]
    apply read_congr
    intro i hi
    exact store_outside (.inl (by omega))
  rw [hfront, read_store, List.take_add, List.prefix_iff_eq_take.mp hpart, List.length_take,
    List.length_drop, min_eq_left (by omega)]

theorem read_inv (h : s.Inv srv path) (hs : s.state = .readReq) (hidle : s.idle = false)
    (hreply : rpcId (k + 1) = rpcId s.sent.length → srv.Reply (.read s.filefh s.nfsOffset s.nfsLen) body) :
    (s.handler (packet (k + 1) body)).Inv srv path := by
  have hu : s.state ≠ .umountReq := by
    rw [hs]
    decide
  have hdone : ¬s.downloadState = .success := fun hsucc => hu (h.done hsucc).1
  have hmounted := h.mounted (.inr (.inl hs))
  have hfound := h.found (.inl hs)
  unfold Client.handler
  rw [hidle]
  simp only [hs, Bool.false_eq_true, if_false]
  rcases readReply_cases (h.len hs) hreply with ⟨hsame, hneg, hfile⟩ | hpart
  · rw [hsame, if_neg (by omega)]
    split
    next hcode =>
      have hbase : ({ s with state := .readlinkReq } : Client).Base srv path :=
        ⟨fun _ => h.chain hu, fun _ => hmounted, fun _ => hfound, nofun,
          fun _ _ => h.none hs (hfile hcode), nofun, nofun,
          fun hsucc => absurd hsucc hdone, h.success⟩
      exact hbase.send
    · rw [if_neg (by omega)]
      exact (h.toBase.giveUp (t := { s with state := .umountReq }) hu rfl rfl rfl).send
  · obtain ⟨bytes, part, hnode, hstarts, hend, heq⟩ := hpart
    obtain ⟨hoff, hread, hsize⟩ := h.part hs bytes hnode
    obtain ⟨hle, hnext⟩ := read_store_part hoff hread hstarts
    have hlt := srv.file_length hnode
    have hreq := h.chain hu bytes (.file hmounted hfound hnode)
    rw [heq]
    by_cases hnil : part = []
    · -- The end of the file: all of it is in memory.
      subst hnil
      have hall : s.nfsOffset = bytes.length := le_antisymm hoff (hend rfl)
      have hxfer : (s.storeBlock [] s.nfsOffset).xferSize = bytes.length := by
        simp only [Client.storeBlock, List.length_nil, Nat.add_zero]
        rw [if_neg (by omega), hsize, hall]
      rw [if_neg (by simp), if_neg (by simp [nfserrIsdir, nfserrInval]), if_pos (by simp)]
      have hbase : ({ s.storeBlock [] s.nfsOffset with
          downloadState := .success, state := .umountReq } : Client).Base srv path := by
        refine Client.Base.over rfl (fun _ => ?_) fun _ => rfl
        unfold Client.Loaded
        rw [hxfer]
        rw [hall, List.length_nil, Nat.add_zero, List.take_length] at hnext
        rw [show (s.storeBlock [] s.nfsOffset).mem = store s.mem s.nfsOffset [] from rfl, hall, hnext]
        exact hreq
      exact hbase.send
    · have hpos : 0 < part.length := List.length_pos_iff.mpr hnil
      rw [if_pos (by omega)]
      have hbase : ({ s.storeBlock part s.nfsOffset with
          nfsOffset := (s.nfsOffset + (part.length : Int).toNat) % 4294967296 } : Client).Base
          srv path := by
        refine ⟨fun _ => h.chain hu, fun _ => hmounted, fun _ => hfound, h.len, ?_, ?_, ?_,
          fun hsucc => absurd hsucc hdone, h.success⟩
        · exact fun hne => absurd hs hne
        · intro _ bytes' hnode'
          cases hnode.symm.trans hnode'
          dsimp only [Client.storeBlock]
          rw [Int.toNat_natCast, Nat.mod_eq_of_lt (by omega)]
          refine ⟨hle, hnext, ?_⟩
          rw [if_pos (by omega)]
        · exact fun _ hno => absurd hnode (hno bytes)
      exact hbase.send

theorem rpcReply_id {call : Call} (hm : ¬(replyId pkt ≠ rpcId s.sent.length ∨ refused pkt ∨ data pkt 0 ≠ 0))
    (hpkt : pkt = packet (k + 1) body)
    (hreply : rpcId (k + 1) = rpcId s.sent.length → srv.Reply call body) :
    srv.Reply call body ∧ ¬refused (packet (k + 1) body) ∧ data (packet (k + 1) body) 0 = 0 := by
  subst hpkt
  rw [not_or, not_or, not_not, not_not, replyId_packet] at hm
  exact ⟨hreply hm.1, hm.2.1, hm.2.2⟩

theorem handler_inv (h : s.Inv srv path)
    (hreply : s.state ≠ .umountReq → rpcId (k + 1) = rpcId s.sent.length → srv.Reply s.call body) :
    (s.handler (packet (k + 1) body)).Inv srv path := by
  by_cases hidle : s.idle = true
  · unfold Client.handler
    rw [if_pos hidle]
    exact h
  have hidle' : s.idle = false := Bool.eq_false_iff.mpr hidle
  have giveUp : s.state ≠ .umountReq → ({ s with state := .umountReq } : Client).send.Inv srv path :=
    fun hu => (h.toBase.giveUp (t := { s with state := .umountReq }) hu rfl rfl rfl).send
  by_cases hs : s.state = .readReq
  · refine read_inv h hs hidle' ?_
    have hcall := hreply (by rw [hs]; decide)
    simp only [Client.call, hs] at hcall
    exact hcall
  unfold Client.handler
  rw [if_neg hidle]
  cases hstate : s.state with
  | readReq => exact absurd hstate hs
  | prclookupProgMountReq => exact port_inv h (.inl hstate) (.inl rfl)
  | prclookupProgNfsReq => exact port_inv h (.inr hstate) (.inr rfl)
  | mountReq =>
    have hu : s.state ≠ .umountReq := by
      rw [hstate]
      decide
    have hcall := hreply hu
    simp only [Client.call, hstate] at hcall
    simp only [Client.mountReply]
    split
    · exact giveUp hu
    next hm =>
      obtain ⟨hr, hok, h0⟩ := rpcReply_id hm rfl hcall
      exact mount_inv h hstate (mount_answer hr hok h0)
  | lookupReq =>
    have hu : s.state ≠ .umountReq := by
      rw [hstate]
      decide
    have hcall := hreply hu
    simp only [Client.call, hstate] at hcall
    simp only [Client.lookupReply]
    split
    · exact giveUp hu
    next hm =>
      obtain ⟨hr, hok, h0⟩ := rpcReply_id hm rfl hcall
      exact lookup_inv h hstate (lookup_answer hr hok h0)
  | readlinkReq =>
    have hu : s.state ≠ .umountReq := by
      rw [hstate]
      decide
    have hcall := hreply hu
    simp only [Client.call, hstate] at hcall
    simp only [Client.readlinkReply]
    split
    · exact giveUp hu
    next hm =>
      obtain ⟨hr, hok, h0⟩ := rpcReply_id hm rfl hcall
      exact readlink_inv h hstate (readlink_answer hr hok h0)
  | umountReq =>
    have hloaded : s.downloadState = .success → s.Loaded srv path := fun hsucc => (h.done hsucc).2
    simp only [Client.umountallReply]
    split
    · exact ⟨Client.Base.over rfl hloaded nofun, fun hne => absurd rfl hne⟩
    · exact ⟨Client.Base.over hstate hloaded fun hn => hn, fun hne => absurd hstate hne⟩

end

end UBoot.Nfs
