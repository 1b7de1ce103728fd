import UBoot.Nfs

namespace UBoot.Nfs

open FlashCells Words

inductive Node where
  | file (bytes : List UInt8)
  | link (text : Text)
  | other

/-- The file system of a server that does not change. -/
structure Server where
  mount : Text → Option Handle
  lookup : Handle → Text → Option Handle
  node : Handle → Node
  mount_length : ∀ {path h}, mount path = some h → h.length = nfsFhsize
  lookup_length : ∀ {dir name h}, lookup dir name = some h → h.length = nfsFhsize
  file_length : ∀ {h bytes}, node h = .file bytes → bytes.length < 4294967296
  link_length : ∀ {h text}, node h = .link text → text.length < 4294967296

/-- What a directory and a name ask for, symbolic links followed. -/
inductive Server.Requested (srv : Server) : Text → Text → List UInt8 → Prop
  | file {dir name d h bytes} : srv.mount dir = some d → srv.lookup d name = some h →
      srv.node h = .file bytes → Server.Requested srv dir name bytes
  | link {dir name d h text bytes} : srv.mount dir = some d → srv.lookup d name = some h →
      srv.node h = .link text →
      Server.Requested srv (followLink dir text).1 (followLink dir text).2 bytes →
      Server.Requested srv dir name bytes

/-- The data behind the header of a reply that accepts a call. A read gives a part of the file from
its offset on, and none of it only at its end; a file that can be read gives no error that says it is
none. -/
inductive Server.Result (srv : Server) : Call → List UInt8 → Prop
  | port (prog p rest) : Server.Result srv (.getport prog) (be32Bytes p ++ rest)
  | mounted {path h} (rest) : srv.mount path = some h →
      Server.Result srv (.mount path) (be32Bytes 0 ++ (h ++ rest))
  | umounted (rest) : Server.Result srv .umountAll rest
  | found {dir name h} (rest) : srv.lookup dir name = some h →
      Server.Result srv (.lookup dir name) (be32Bytes 0 ++ (h ++ rest))
  | link {h text} (rest) : srv.node h = .link text →
      Server.Result srv (.readlink h) (be32Bytes 0 ++ (be32Bytes text.length ++ (text ++ rest)))
  | data {h offset len bytes part attributes} (rest) : srv.node h = .file bytes →
      part <+: bytes.drop offset → part.length ≤ len → (part = [] → bytes.length ≤ offset) →
      attributes.length = 68 →
      Server.Result srv (.read h offset len)
        (be32Bytes 0 ++ (attributes ++ (be32Bytes part.length ++ (part ++ rest))))
  | error {call status} (rest) : status ≠ 0 → status < 2147483648 →
      (∀ h offset len bytes, call = .read h offset len → srv.node h = .file bytes →
        status ≠ 21 ∧ status ≠ 22) →
      Server.Result srv call (be32Bytes status ++ rest)

/-- What a server sends back, behind the id of the call. -/
inductive Server.Reply (srv : Server) (call : Call) : List UInt8 → Prop
  | accepted {data} : srv.Result call data →
      Server.Reply srv call
        (be32Bytes 1 ++ (be32Bytes 0 ++ (be32Bytes 0 ++ (be32Bytes 0 ++ (be32Bytes 0 ++ data)))))
  | failed {v2 code} (rest) : code % 4294967296 ≠ 0 →
      Server.Reply srv call
        (be32Bytes 1 ++ (be32Bytes 0 ++ (be32Bytes 0 ++ (be32Bytes v2 ++ (be32Bytes code ++ rest)))))
  | denied {code} (rest) : code % 4294967296 ≠ 0 →
      Server.Reply srv call (be32Bytes 1 ++ (be32Bytes code ++ rest))

section
variable {xs ys : List UInt8} {v a n : Nat}

theorem bytesAt_append (xs ys : List UInt8) (a : Nat) :
    bytesAt (xs ++ ys) (xs.length + a) = bytesAt ys a := by
  unfold bytesAt
  rw [List.getD_append_right _ _ _ _ (Nat.le_add_right _ _), Nat.add_sub_cancel_left]

theorem read_bytesAt_append (xs ys : List UInt8) (a n : Nat) :
    read (bytesAt (xs ++ ys)) (xs.length + a) n = read (bytesAt ys) a n := by
  apply read_congr
  intro i _
  rw [Nat.add_assoc, bytesAt_append]

theorem read_bytesAt_front (xs ys : List UInt8) : read (bytesAt (xs ++ ys)) 0 xs.length = xs := by
  apply List.ext_getElem (read_length _ _ _)
  intro i hi hx
  simp [FlashCells.read, bytesAt, List.getD, List.getElem?_append_left hx, hx]

theorem be32_front (v : Nat) (ys : List UInt8) : be32 (bytesAt (be32Bytes v ++ ys)) 0 = v % 4294967296 :=
  be32_of_read (read_bytesAt_front (be32Bytes v) ys)

theorem be32_behind (xs ys : List UInt8) (a : Nat) :
    be32 (bytesAt (xs ++ ys)) (xs.length + a) = be32 (bytesAt ys) a := by
  have hbyte : ∀ i, bytesAt (xs ++ ys) (xs.length + a + i) = bytesAt ys (a + i) := fun i => by
    rw [Nat.add_assoc, bytesAt_append]
  unfold be32 be16
  have h₀ := hbyte 0
  rw [Nat.add_zero, Nat.add_zero] at h₀
  rw [h₀, hbyte 1, hbyte 2, show xs.length + a + 2 + 1 = xs.length + a + 3 from rfl, hbyte 3]

theorem be32_next (v : Nat) (ys : List UInt8) (a : Nat) :
    be32 (bytesAt (be32Bytes v ++ ys)) (4 + a) = be32 (bytesAt ys) a := be32_behind (be32Bytes v) ys a

theorem read_next (v : Nat) (ys : List UInt8) (a n : Nat) :
    read (bytesAt (be32Bytes v ++ ys)) (4 + a) n = read (bytesAt ys) a n :=
  read_bytesAt_append (be32Bytes v) ys a n

def packet (id : Nat) (body : List UInt8) : List UInt8 := be32Bytes id ++ body

def acceptance (data : List UInt8) : List UInt8 :=
  be32Bytes 1 ++ (be32Bytes 0 ++ (be32Bytes 0 ++ (be32Bytes 0 ++ (be32Bytes 0 ++ data))))

theorem replyId_packet (id : Nat) (body : List UInt8) :
    replyId (packet id body) = id % 4294967296 := be32_front id body

theorem acceptance_not_refused (id : Nat) (ds : List UInt8) : ¬refused (packet id (acceptance ds)) := by
  have hr : rstatus (packet id (acceptance ds)) = 0 := by
    change be32 (bytesAt (be32Bytes id ++ (be32Bytes 1 ++ _))) (4 + (4 + 0)) = 0
    rw [be32_next, be32_next, be32_front]
  have hv : verifier (packet id (acceptance ds)) = 0 := by
    change be32 (bytesAt (be32Bytes id ++ (be32Bytes 1 ++ (be32Bytes 0 ++ _)))) (4 + (4 + (4 + 0))) = 0
    rw [be32_next, be32_next, be32_next, be32_front]
  have ha : astatus (packet id (acceptance ds)) = 0 := by
    change be32 (bytesAt (be32Bytes id ++ (be32Bytes 1 ++ (be32Bytes 0 ++ (be32Bytes 0 ++
      (be32Bytes 0 ++ (be32Bytes 0 ++ ds))))))) (4 + (4 + (4 + (4 + (4 + 0))))) = 0
    rw [be32_next, be32_next, be32_next, be32_next, be32_next, be32_front]
  rintro (h | h | h)
  · exact h hr
  · exact h hv
  · exact h ha

theorem data_acceptance (id : Nat) (ds : List UInt8) (i : Nat) :
    data (packet id (acceptance ds)) i = be32 (bytesAt ds) (4 * i) := by
  unfold data packet acceptance
  rw [show 24 + 4 * i = 4 + (4 + (4 + (4 + (4 + (4 + 4 * i))))) by omega]
  rw [be32_next, be32_next, be32_next, be32_next, be32_next, be32_next]

theorem read_acceptance (id : Nat) (ds : List UInt8) (a n : Nat) :
    read (bytesAt (packet id (acceptance ds))) (24 + a) n = read (bytesAt ds) a n := by
  unfold packet acceptance
  rw [show 24 + a = 4 + (4 + (4 + (4 + (4 + (4 + a))))) by omega]
  rw [read_next, read_next, read_next, read_next, read_next, read_next]

theorem failed_refused {id v2 code : Nat} {rest : List UInt8} (h : code % 4294967296 ≠ 0) :
    astatus (packet id (be32Bytes 1 ++ (be32Bytes 0 ++ (be32Bytes 0 ++ (be32Bytes v2 ++
      (be32Bytes code ++ rest)))))) ≠ 0 := by
  change be32 (bytesAt (be32Bytes id ++ _)) (4 + (4 + (4 + (4 + (4 + 0))))) ≠ 0
  rw [be32_next, be32_next, be32_next, be32_next, be32_next, be32_front]
  exact h

theorem denied_refused {id code : Nat} {rest : List UInt8} (h : code % 4294967296 ≠ 0) :
    rstatus (packet id (be32Bytes 1 ++ (be32Bytes code ++ rest))) ≠ 0 := by
  change be32 (bytesAt (be32Bytes id ++ _)) (4 + (4 + 0)) ≠ 0
  rw [be32_next, be32_next, be32_front]
  exact h

end

section
variable {srv : Server} {call : Call} {body : List UInt8} {id : Nat}

theorem Server.Reply.cases (h : srv.Reply call body) : (∃ ds, srv.Result call ds ∧ body = acceptance ds) ∨
      ∀ id, rstatus (packet id body) ≠ 0 ∨ astatus (packet id body) ≠ 0 := by
  cases h with
  | accepted hresult => exact .inl ⟨_, hresult, rfl⟩
  | failed rest hcode => exact .inr fun id => .inr (failed_refused hcode)
  | denied rest hcode => exact .inr fun id => .inl (denied_refused hcode)

theorem refused_of {pkt : List UInt8} (h : rstatus pkt ≠ 0 ∨ astatus pkt ≠ 0) : refused pkt :=
  h.imp_right .inr

theorem mount_answer {path : Text} (h : srv.Reply (.mount path) body)
    (hr : ¬refused (packet id body)) (h0 : data (packet id body) 0 = 0) :
    srv.mount path = some (read (bytesAt (packet id body)) 28 nfsFhsize) := by
  rcases h.cases with ⟨ds, hresult, rfl⟩ | hbad
  · rw [data_acceptance] at h0
    rw [show 28 = 24 + 4 from rfl, read_acceptance]
    cases hresult with
    | @mounted _ hd rest hmount =>
      have hlen := srv.mount_length hmount
      have hread := read_next 0 (hd ++ rest) 0 nfsFhsize
      rw [show 4 + 0 = 4 from rfl, ← hlen, read_bytesAt_front] at hread
      rw [← hlen, hread]
      exact hmount
    | error rest hne hlt _ =>
      rw [Nat.mul_zero, be32_front] at h0
      omega
  · exact absurd (refused_of (hbad id)) hr

theorem lookup_answer {dir : Handle} {name : Text} (h : srv.Reply (.lookup dir name) body)
    (hr : ¬refused (packet id body)) (h0 : data (packet id body) 0 = 0) :
    srv.lookup dir name = some (read (bytesAt (packet id body)) 28 nfsFhsize) := by
  rcases h.cases with ⟨ds, hresult, rfl⟩ | hbad
  · rw [data_acceptance] at h0
    rw [show 28 = 24 + 4 from rfl, read_acceptance]
    cases hresult with
    | @found _ _ hd rest hlookup =>
      have hlen := srv.lookup_length hlookup
      have hread := read_next 0 (hd ++ rest) 0 nfsFhsize
      rw [show 4 + 0 = 4 from rfl, ← hlen, read_bytesAt_front] at hread
      rw [← hlen, hread]
      exact hlookup
    | error rest hne hlt _ =>
      rw [Nat.mul_zero, be32_front] at h0
      omega
  · exact absurd (refused_of (hbad id)) hr

theorem readlink_answer {file : Handle} (h : srv.Reply (.readlink file) body)
    (hr : ¬refused (packet id body)) (h0 : data (packet id body) 0 = 0) :
    srv.node file = .link (read (bytesAt (packet id body)) 32 (data (packet id body) 1)) := by
  rcases h.cases with ⟨ds, hresult, rfl⟩ | hbad
  · rw [data_acceptance] at h0
    rw [data_acceptance, show 32 = 24 + 8 from rfl, read_acceptance]
    cases hresult with
    | @link _ text rest hnode =>
      have hlen := srv.link_length hnode
      have hcount : be32 (bytesAt (be32Bytes 0 ++ (be32Bytes text.length ++ (text ++ rest)))) (4 * 1) =
          text.length := by
        rw [show 4 * 1 = 4 + 0 from rfl, be32_next, be32_front, Nat.mod_eq_of_lt hlen]
      rw [hcount, show 8 = 4 + (4 + 0) from rfl, read_next, read_next, read_bytesAt_front]
      exact hnode
    | error rest hne hlt _ =>
      rw [Nat.mul_zero, be32_front] at h0
      omega
  · exact absurd (refused_of (hbad id)) hr

theorem read_answer {file : Handle} {offset len : Nat} (h : srv.Reply (.read file offset len) body)
    (hl : len < 2147483648) :
    (rstatus (packet id body) ≠ 0 ∨ astatus (packet id body) ≠ 0) ∨ ¬refused (packet id body) ∧
        ((data (packet id body) 0 ≠ 0 ∧ data (packet id body) 0 < 2147483648 ∧
            ∀ bytes, srv.node file = .file bytes →
              data (packet id body) 0 ≠ 21 ∧ data (packet id body) 0 ≠ 22) ∨
          data (packet id body) 0 = 0 ∧ ∃ bytes part, srv.node file = .file bytes ∧
            part <+: bytes.drop offset ∧ (part = [] → bytes.length ≤ offset) ∧
            data (packet id body) 18 = part.length ∧ part.length < 2147483648 ∧
            read (bytesAt (packet id body)) 100 part.length = part) := by
  rcases h.cases with ⟨ds, hresult, rfl⟩ | hbad
  · refine .inr ⟨acceptance_not_refused id ds, ?_⟩
    rw [data_acceptance, data_acceptance]
    cases hresult with
    | @data _ _ _ bytes part attributes rest hnode hstarts hlen hend hattr =>
      right
      refine ⟨be32_front 0 _, bytes, part, hnode, hstarts, hend, ?_, by omega, ?_⟩
      · have hskip := be32_behind attributes (be32Bytes part.length ++ (part ++ rest)) 0
        rw [hattr] at hskip
        rw [show 4 * 18 = 4 + (68 + 0) from rfl, be32_next, hskip, be32_front]
        omega
      · have hskip := read_bytesAt_append attributes (be32Bytes part.length ++ (part ++ rest)) 4
          part.length
        rw [hattr] at hskip
        rw [show 100 = 24 + (4 + (68 + 4)) from rfl, read_acceptance, read_next, hskip,
          show 4 = 4 + 0 from rfl, read_next, read_bytesAt_front]
    | @error _ status rest hne hlt hfile =>
      left
      rw [Nat.mul_zero, be32_front, Nat.mod_eq_of_lt (by omega)]
      exact ⟨hne, hlt, fun bytes hnode => hfile file offset len bytes rfl hnode⟩
  · exact .inl (hbad id)

end

end UBoot.Nfs
