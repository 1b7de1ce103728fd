import UBoot.NfsSteps

namespace UBoot.Nfs

open FlashCells Words

/-- The reply to the `k`-th request since power-on, a time-out, or the new start after too many of
them. -/
inductive Event where
  | deliver (k : Nat) (body : List UInt8)
  | timeout (retry : Bool)
  | restart

def Client.next (path : Text) (s : Client) : Event → Client
  | .deliver k body => s.handler (packet (k + 1) body)
  | .timeout retry => s.timeout retry
  | .restart => s.start path

/-- Replies come from the server, at any time after the request and any number of times. -/
def Client.Possible (srv : Server) (s : Client) : Event → Prop
  | .deliver k body => ∃ call, s.sent[k]? = some call ∧ srv.Reply call body
  | .timeout _ => s.idle = false ∧ s.netState = .going
  | .restart => s.idle = true ∧ s.netState = .going

def Schedule (srv : Server) (path : Text) : Client → List Event → Prop
  | _, [] => True
  | s, e :: es => s.Possible srv e ∧ Schedule srv path (s.next path e) es

def run (path : Text) (s : Client) (es : List Event) : Client := es.foldl (Client.next path) s

def Client.Unchanged (s t : Client) : Prop :=
  t.state = s.state ∧ t.nfsOffset = s.nfsOffset ∧ t.dirfh = s.dirfh ∧ t.filefh = s.filefh ∧
    t.netState = s.netState

/-- A packet with another id than that of the latest request changes nothing. -/
def Client.Ignores (path : Text) (s : Client) : Event → Prop
  | .deliver k body =>
    rpcId (k + 1) ≠ rpcId s.sent.length → s.Unchanged (s.next path (.deliver k body))
  | _ => True

def RightRun (srv : Server) (path : Text) : Client → List Event → Prop
  | _, [] => True
  | s, e :: es => s.Ignores path e ∧
      ((s.next path e).netState = .success → (s.next path e).Loaded srv path) ∧
      RightRun srv path (s.next path e) es

/-- A packet that answers the latest request, or that comes when nothing is at stake: while packets
are not looked at, or after the download has failed. -/
def Client.Fresh (s : Client) : Event → Prop
  | .deliver k _ => k + 1 = s.sent.length ∨ s.idle = true ∨ s.state = .umountReq ∧ s.netState = .fail
  | _ => True

def FreshRun (path : Text) : Client → List Event → Prop
  | _, [] => True
  | s, e :: es => s.Fresh e ∧ FreshRun path (s.next path e) es

section
variable {srv : Server} {path : Text} {s : Client} {pkt body : List UInt8} {k : Nat}

theorem mismatch_changes (hid : rpcId (k + 1) ≠ rpcId s.sent.length) (hidle : s.idle = false)
    (hfail : ¬(s.state = .umountReq ∧ s.netState = .fail)) :
    ¬s.Unchanged (s.handler (packet (k + 1) body)) := by
  rintro ⟨hst, -, -, -, hnet⟩
  have hsend : ∀ t : Client, t.send.state = t.state := fun t => by
    by_cases ht : t.state = .umountReq
    · rcases Client.send_umount ht with heq | heq
      · rw [heq]
      · rw [heq]
        rfl
    · rw [Client.send_eq ht]
      rfl
  have hreply : replyId (packet (k + 1) body) ≠ rpcId s.sent.length := by
    rw [replyId_packet]
    exact hid
  simp only [Client.handler, hidle, Bool.false_eq_true, if_false] at hst hnet
  cases hstate : s.state with
  | umountReq =>
    simp only [hstate, Client.umountallReply, if_pos (Or.inl hreply), Option.elim] at hnet
    exact hfail ⟨hstate, hnet.symm⟩
  | prclookupProgMountReq =>
    simp only [hstate, hsend] at hst
    cases hst
  | prclookupProgNfsReq =>
    simp only [hstate, hsend] at hst
    cases hst
  | mountReq =>
    simp only [hstate, Client.mountReply, if_pos (Or.inl hreply), Option.elim, hsend] at hst
    cases hst
  | lookupReq =>
    simp only [hstate, Client.lookupReply, if_pos (Or.inl hreply), Option.elim, hsend] at hst
    cases hst
  | readlinkReq =>
    simp only [hstate, Client.readlinkReply, if_pos (Or.inl hreply), Option.elim, hsend] at hst
    cases hst
  | readReq =>
    simp only [hstate, Client.readReply, if_pos hreply] at hst
    rw [if_neg (by omega), if_neg (by simp [nfserrIsdir, nfserrInval]), hsend] at hst
    cases hst

theorem mismatch_unchanged (hid : rpcId (k + 1) ≠ rpcId s.sent.length)
    (h : s.idle = true ∨ s.state = .umountReq ∧ s.netState = .fail) :
    s.Unchanged (s.handler (packet (k + 1) body)) := by
  have hreply : replyId (packet (k + 1) body) ≠ rpcId s.sent.length := by
    rw [replyId_packet]
    exact hid
  unfold Client.handler
  split
  · exact ⟨rfl, rfl, rfl, rfl, rfl⟩
  next hidle =>
    obtain ⟨hs, hn⟩ := h.resolve_left hidle
    simp only [hs, Client.umountallReply, if_pos (Or.inl hreply), Option.elim]
    exact ⟨hs.symm, rfl, rfl, rfl, hn.symm⟩

end

section
variable {srv : Server} {path : Text} {s : Client} {e : Event}

theorem latest_call (h : s.Inv srv path) (hs : s.state ≠ .umountReq) {k : Nat} {call : Call}
    (hk : k + 1 = s.sent.length) (hcall : s.sent[k]? = some call) : call = s.call := by
  have hlast := h.latest hs
  rw [List.getLast?_eq_getElem?, ← hk, Nat.add_sub_cancel, hcall] at hlast
  exact Option.some.inj hlast

theorem next_inv (h : s.Inv srv path) (hp : s.Possible srv e)
    (hid : ∀ k body, e = .deliver k body → s.idle = false → s.state ≠ .umountReq →
      rpcId (k + 1) = rpcId s.sent.length → k + 1 = s.sent.length) : (s.next path e).Inv srv path := by
  cases e with
  | timeout retry => exact timeout_inv h retry
  | restart => exact start_inv s path
  | deliver k body =>
    obtain ⟨call, hcall, hreply⟩ := hp
    by_cases hidle : s.idle = true
    · have hsame : s.next path (.deliver k body) = s := if_pos hidle
      rw [hsame]
      exact h
    · refine handler_inv h fun hs hk => ?_
      have hlast := hid k body rfl (Bool.eq_false_iff.mpr hidle) hs hk
      rw [← latest_call h hs hlast hcall]
      exact hreply

theorem Fresh.id (h : s.Fresh e) : ∀ k body, e = .deliver k body → s.idle = false → s.state ≠ .umountReq →
      rpcId (k + 1) = rpcId s.sent.length → k + 1 = s.sent.length := by
  rintro k body rfl hidle hs -
  rcases h with h | h | h
  · exact h
  · rw [hidle] at h
    cases h
  · exact absurd h.1 hs

theorem Fresh.ignores (h : s.Fresh e) : s.Ignores path e := by
  cases e with
  | timeout retry => exact trivial
  | restart => exact trivial
  | deliver k body =>
    intro hid
    refine mismatch_unchanged hid (h.resolve_left ?_)
    intro hk
    exact hid (by rw [hk])

variable {es : List Event}

theorem FreshRun.right (h : s.Inv srv path) (hsched : Schedule srv path s es)
    (hfresh : FreshRun path s es) : RightRun srv path s es := by
  induction es generalizing s with
  | nil => exact trivial
  | cons e es ih =>
    have hnext := next_inv h hsched.1 (Fresh.id hfresh.1)
    refine ⟨Fresh.ignores hfresh.1, ?_, ih hnext hsched.2 hfresh.2⟩
    exact fun hsucc => (hnext.done (hnext.success hsucc)).2

theorem rpcReq_sent (s : Client) (call : Call) : s.sent.length ≤ (s.rpcReq call).sent.length := by
  simp [Client.rpcReq]

theorem send_sent {t : Client} (ht : t.sent = s.sent) : s.sent.length ≤ t.send.sent.length := by
  rw [← ht]
  by_cases hs : t.state = .umountReq
  · rcases Client.send_umount hs with heq | heq
    · rw [heq]
    · rw [heq]
      exact rpcReq_sent _ _
  · rw [Client.send_eq hs]
    exact rpcReq_sent _ _

theorem rpcLookupReply_sent (s : Client) (prog : Nat) (pkt : List UInt8) :
    (s.rpcLookupReply prog pkt).sent = s.sent := by
  unfold Client.rpcLookupReply
  split
  · rfl
  · split
    · rfl
    · rfl

theorem readReply_sent (s : Client) (pkt : List UInt8) : (s.readReply pkt).2.sent = s.sent := by
  unfold Client.readReply
  split
  · rfl
  · split
    · split
      · rfl
      · rfl
    · rfl

theorem handler_sent (s : Client) (pkt : List UInt8) : s.sent.length ≤ (s.handler pkt).sent.length := by
  unfold Client.handler
  split
  · exact le_refl _
  cases s.state with
  | prclookupProgMountReq => exact send_sent (rpcLookupReply_sent s _ pkt)
  | prclookupProgNfsReq => exact send_sent (rpcLookupReply_sent s _ pkt)
  | mountReq =>
    dsimp only [Client.mountReply]
    split
    · rw [Option.elim_none]
      exact send_sent rfl
    · rw [Option.elim_some]
      exact send_sent rfl
  | umountReq =>
    simp only [Client.umountallReply]
    split
    · exact le_refl _
    · exact le_refl _
  | lookupReq =>
    dsimp only [Client.lookupReply]
    split
    · rw [Option.elim_none]
      exact send_sent rfl
    · rw [Option.elim_some]
      exact send_sent rfl
  | readlinkReq =>
    dsimp only [Client.readlinkReply]
    split
    · rw [Option.elim_none]
      exact send_sent rfl
    · rw [Option.elim_some]
      exact send_sent rfl
  | readReq =>
    dsimp only
    split
    · exact send_sent (readReply_sent s pkt)
    · split
      · exact send_sent (readReply_sent s pkt)
      · exact send_sent (readReply_sent s pkt)

theorem next_sent (path : Text) (s : Client) (e : Event) : s.sent.length ≤ (s.next path e).sent.length := by
  cases e with
  | deliver k body => exact handler_sent s _
  | restart => exact send_sent rfl
  | timeout retry =>
    unfold Client.next Client.timeout
    dsimp only
    split
    · split
      · exact le_refl _
      · exact le_refl _
    · exact send_sent rfl

theorem run_sent (path : Text) (s : Client) (es : List Event) :
    s.sent.length ≤ (run path s es).sent.length := by
  induction es generalizing s with
  | nil => exact le_refl _
  | cons e es ih => exact (next_sent path s e).trans (ih _)

theorem short_id {k : Nat} {call : Call} (hcall : s.sent[k]? = some call)
    (hshort : s.sent.length < 4294967296) (hid : rpcId (k + 1) = rpcId s.sent.length) :
    k + 1 = s.sent.length := by
  have hk := (List.getElem?_eq_some_iff.mp hcall).1
  unfold rpcId at hid
  rw [Nat.mod_eq_of_lt (by omega), Nat.mod_eq_of_lt hshort] at hid
  exact hid

theorem RightRun.fresh (hsched : Schedule srv path s es)
    (hshort : (run path s es).sent.length < 4294967296) (hright : RightRun srv path s es) :
    FreshRun path s es := by
  induction es generalizing s with
  | nil => exact trivial
  | cons e es ih =>
    refine ⟨?_, ih hsched.2 hshort hright.2.2⟩
    cases e with
    | timeout retry => exact trivial
    | restart => exact trivial
    | deliver k body =>
      obtain ⟨call, hcall, -⟩ := hsched.1
      have hs : s.sent.length < 4294967296 := (run_sent path s _).trans_lt hshort
      by_contra hstale
      unfold Client.Fresh at hstale
      rw [not_or, not_or] at hstale
      obtain ⟨hk, hidle, hfail⟩ := hstale
      have hid : rpcId (k + 1) ≠ rpcId s.sent.length := fun hid => hk (short_id hcall hs hid)
      exact mismatch_changes hid (Bool.eq_false_iff.mpr hidle) hfail (hright.1 hid)

theorem run_inv (h : s.Inv srv path) (hsched : Schedule srv path s es)
    (hshort : (run path s es).sent.length < 4294967296) : (run path s es).Inv srv path := by
  induction es generalizing s with
  | nil => exact h
  | cons e es ih =>
    have hs : s.sent.length < 4294967296 := (run_sent path s _).trans_lt hshort
    refine ih (next_inv h hsched.1 ?_) hsched.2 hshort
    rintro k body rfl - -
    obtain ⟨call, hcall, -⟩ := hsched.1
    exact short_id hcall hs

end

/-- Late replies cannot spoil what a client loads: a run of fewer than `2 ^ 32` requests that ends well
has the file. -/
theorem short_run_loaded {srv : Server} {path : Text} {s : Client} {es : List Event}
    (hsched : Schedule srv path (s.start path) es)
    (hshort : (run path (s.start path) es).sent.length < 4294967296)
    (hsucc : (run path (s.start path) es).netState = .success) :
    (run path (s.start path) es).Loaded srv path := by
  have h := run_inv (start_inv s path) hsched hshort
  exact (h.done (h.success hsucc)).2

/-- If every packet is fresh then late ones are ignored and a client that ends well has the file. In
runs of fewer than `2 ^ 32` requests late packets are ignored in no other way. -/
theorem nfs_tolerates_iff (srv : Server) (path : Text) (s : Client) (es : List Event)
    (hsched : Schedule srv path (s.start path) es) :
    (FreshRun path (s.start path) es → RightRun srv path (s.start path) es) ∧
      ((run path (s.start path) es).sent.length < 4294967296 →
        (RightRun srv path (s.start path) es ↔ FreshRun path (s.start path) es)) := by
  have hinv : (s.start path).Inv srv path := start_inv s path
  exact ⟨FreshRun.right hinv hsched,
    fun hshort => ⟨RightRun.fresh hsched hshort, FreshRun.right hinv hsched⟩⟩

/-- A server with the file `/d/f`. -/
def smallServer : Server where
  mount path := if path = [47, 100] then some (List.replicate 32 7) else none
  lookup dir name :=
    if dir = List.replicate 32 7 ∧ name = [102] then some (List.replicate 32 9) else none
  node h := if h = List.replicate 32 9 then .file [104, 105] else .other
  mount_length := by
    intro path h hm
    split at hm
    · cases hm
      rfl
    · cases hm
  lookup_length := by
    intro dir name h hm
    split at hm
    · cases hm
      rfl
    · cases hm
  file_length := by
    intro h bytes hm
    split at hm
    · cases hm
      decide
    · cases hm
  link_length := by
    intro h text hm
    split at hm
    · cases hm
    · cases hm

def powerOn : Client where
  fsMounted := false
  sent := []
  nfsOffset := 0
  nfsLen := 0
  dirfh := List.replicate 32 0
  filefh := List.replicate 32 0
  downloadState := .fail
  srvMountPort := 0
  srvNfsPort := 0
  timeoutCount := 0
  state := .prclookupProgMountReq
  path := []
  filename := []
  netState := .going
  idle := false
  mem := fun _ => 0
  xferSize := 0

def smallPath : Text := [47, 100, 47, 102]

def portion (part : List UInt8) : List UInt8 :=
  acceptance (be32Bytes 0 ++ (List.replicate 68 0 ++ (be32Bytes part.length ++ (part ++ []))))

def download : List Event :=
  [.deliver 0 (acceptance (be32Bytes 700)), .deliver 1 (acceptance (be32Bytes 2049)),
    .deliver 2 (acceptance (be32Bytes 0 ++ (List.replicate 32 7 ++ []))),
    .deliver 3 (acceptance (be32Bytes 0 ++ (List.replicate 32 9 ++ []))),
    .deliver 4 (portion [104, 105]), .deliver 5 (portion []), .deliver 6 (acceptance [])]

theorem download_scheduled : Schedule smallServer smallPath (powerOn.start smallPath) download := by
  refine ⟨⟨.getport progMount, by decide, .accepted (.port _ 700 [])⟩,
    ⟨.getport progNfs, by decide, .accepted (.port _ 2049 [])⟩,
    ⟨.mount [47, 100], by decide, .accepted (.mounted [] rfl)⟩,
    ⟨.lookup (List.replicate 32 7) [102], by decide, .accepted (.found [] rfl)⟩,
    ⟨.read (List.replicate 32 9) 0 1024, by decide, .accepted (.data [] rfl ?_ ?_ ?_ ?_)⟩,
    ⟨.read (List.replicate 32 9) 2 1024, by decide, .accepted (.data [] rfl ?_ ?_ ?_ ?_)⟩,
    ⟨.umountAll, by decide, .accepted (.umounted [])⟩, trivial⟩
  all_goals decide

theorem nfs_tolerates_download : (run smallPath (powerOn.start smallPath) download).netState = .success ∧
      RightRun smallServer smallPath (powerOn.start smallPath) download := by
  refine ⟨by decide, (nfs_tolerates_iff smallServer smallPath powerOn download
    download_scheduled).1 ?_⟩
  refine ⟨.inl ?_, .inl ?_, .inl ?_, .inl ?_, .inl ?_, .inl ?_, .inl ?_, trivial⟩
  all_goals decide

theorem short_run_loaded_download :
    (run smallPath (powerOn.start smallPath) download).Loaded smallServer smallPath :=
  short_run_loaded download_scheduled (by decide) (by decide)

/-- The reply about the port of the mount daemon comes twice: the client takes the second copy for an
answer about the port of the NFS server. -/
theorem late_port_reply_taken : ∃ (srv : Server) (path : Text) (s : Client) (es : List Event),
      Schedule srv path (s.start path) es ∧ ¬RightRun srv path (s.start path) es := by
  refine ⟨smallServer, smallPath, powerOn, [.deliver 0 (acceptance (be32Bytes 700)),
    .deliver 0 (acceptance (be32Bytes 700))],
    ⟨⟨.getport progMount, by decide, .accepted (.port _ 700 [])⟩,
      ⟨.getport progMount, by decide, .accepted (.port _ 700 [])⟩, trivial⟩, ?_⟩
  rintro ⟨-, -, hignored, -⟩
  have hstate := (hignored (by decide)).1
  revert hstate
  decide

end UBoot.Nfs
