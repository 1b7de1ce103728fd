import UBoot.Bootp

namespace UBoot.Bootp

open Cells List

variable {pkt s old : List UInt8} {x y : Var} {v v' : Vars} {c : Copy} {cs : List Copy} {once : Bool}
  {i n : Nat}

theorem Vars.put_some (h : v.put x s = some v') : v'.bytes = Function.update v.bytes x (x.filled s (v.bytes x)) ∧
    v'.netBootFileSize = v.netBootFileSize := by
  unfold Vars.put at h
  split at h
  · cases h
    exact ⟨rfl, rfl⟩
  · cases h

theorem Vars.exists_put (v : Vars) (h : (x.stored s).length ≤ x.size) : ∃ v', v.put x s = some v' := by
  unfold Vars.put
  rw [dif_pos h]
  exact ⟨_, rfl⟩

theorem Var.stored_length (x : Var) (s : List UInt8) :
    (x.stored s).length = if x.isString then s.length + 1 else s.length := by
  unfold Var.stored
  split
  · rw [length_append, length_singleton]
  · split
    · rw [length_reverse]
    · rfl

def Copy.Fits (c : Copy) : Prop := if c.dest.isString then c.len < c.dest.size else c.len = c.dest.size

theorem Copy.Fits.stored (h : c.Fits) (hs : s.length = c.len) : (c.dest.stored s).length ≤ c.dest.size := by
  rw [Var.stored_length, hs]
  unfold Copy.Fits at h
  split at h
  next hstring => rwa [if_pos hstring]
  next haddr => rw [if_neg haddr, h]

theorem Copy.Fits.zero_filled (h : c.Fits) (hs : s.length = c.len) (hold : old.length = c.dest.size) :
    c.dest.zero (c.dest.filled s old) = c.dest.zero s := by
  unfold Copy.Fits at h
  unfold Var.zero Var.filled
  split at h
  next hstring =>
    rw [if_pos hstring, if_pos hstring, Var.stored, if_pos hstring]
    cases s with
    | nil => rfl
    | cons c s => rfl
  next haddr =>
    have hlen := Var.stored_length c.dest s
    rw [if_neg haddr] at hlen
    rw [if_neg haddr, if_neg haddr, drop_eq_nil_of_le (by omega), append_nil, Var.stored, if_neg haddr]
    split
    · rw [all_reverse]
    · rfl

theorem truncateSz_lt (size : Nat) (h : 0 < n) : truncateSz n size < n := by
  unfold truncateSz
  split <;> omega

theorem copyIP_fits (hx : x.isString = false) (hsize : x.size = 4) (off : Nat) : (copyIP x off).Fits := by
  unfold Copy.Fits copyIP
  rw [hx, hsize]
  rfl

theorem copyString_fits (hx : x.isString = true) (size : Nat) : (copyString x size).Fits := by
  unfold Copy.Fits copyString
  rw [if_pos hx]
  apply truncateSz_lt
  cases x <;> decide

/-- What the copy takes, from a value that begins at `i`. -/
def Copy.value (c : Copy) (pkt : List UInt8) (i : Nat) : List UInt8 := (pkt.drop (i + c.off)).take c.len

def Copy.Due (c : Copy) (once : Bool) (v : Vars) : Prop := once = true → v.isZero c.dest = true

/-- The variables of the copies differ, and the values fit in them. -/
structure Copies (cs : List Copy) : Prop where
  apart : (cs.map Copy.dest).Nodup
  fits : ∀ c ∈ cs, c.Fits

theorem Copies.tail (h : Copies (c :: cs)) : Copies cs :=
  ⟨(nodup_cons.mp h.apart).2, fun d hd => h.fits d (mem_cons_of_mem c hd)⟩

theorem Copies.ne (h : Copies (c :: cs)) : ∀ d ∈ cs, d.dest ≠ c.dest := by
  intro d hd heq
  exact (nodup_cons.mp h.apart).1 (heq ▸ mem_map_of_mem hd)

theorem Copies.single (h : c.Fits) : Copies [c] :=
  ⟨nodup_cons.mpr ⟨not_mem_nil, nodup_nil⟩, fun _ hd => mem_singleton.mp hd ▸ h⟩

def Var.code : Var → UInt8
  | .netOurSubnetMask => 1
  | .netTimeOffset => 2
  | .netOurGatewayIP => 3
  | .netOurDNSIP | .netOurDNS2IP => 6
  | .netOurHostName => 12
  | .netOurRootPath => 17
  | .netNtpServerIP => 42
  | .dhcpLeasetime => 51
  | .netDHCPServerIP => 54
  | _ => 0

/-- The copies for an option: none, an address, those of two name servers, or a name. -/
inductive CopiesFor (P : Var → Prop) (n : Nat) : List Copy → Prop where
  | nil : CopiesFor P n []
  | address (x : Var) (hx : P x) (hstring : x.isString = false) (hsize : x.size = 4) : CopiesFor P n [copyIP x 0]
  | servers (hx : P .netOurDNSIP) (hmore : 4 < n) :
    CopiesFor P n [copyIP .netOurDNSIP 0, copyIP .netOurDNS2IP 4]
  | name (x : Var) (hx : P x) (hstring : x.isString = true) : CopiesFor P n [copyString x n]

theorem CopiesFor.copies {P : Var → Prop} (h : CopiesFor P n cs) : Copies cs := by
  cases h with
  | nil => exact ⟨nodup_nil, fun _ h => absurd h not_mem_nil⟩
  | address x _ hstring hsize => exact .single (copyIP_fits hstring hsize 0)
  | servers =>
    refine ⟨by decide, fun c hc => ?_⟩
    rcases mem_pair.mp hc with rfl | rfl
    · exact copyIP_fits rfl rfl 0
    · exact copyIP_fits rfl rfl 4
  | name x _ hstring => exact .single (copyString_fits hstring n)

theorem servers_kind {P : Var → Prop} (cfg : Config) (size : Nat) (hx : P .netOurDNSIP) : CopiesFor P size
    (copyIP .netOurDNSIP 0 :: (if cfg.dns2 ∧ size > 4 then [copyIP .netOurDNS2IP 4] else [])) := by
  split
  next hmore => exact .servers hx hmore.2
  · exact .address _ hx rfl rfl

theorem vendorCopies_copies (cfg : Config) (code : UInt8) (size : Nat) : Copies (vendorCopies cfg code size) := by
  suffices h : CopiesFor (fun _ => True) size (vendorCopies cfg code size) from h.copies
  unfold vendorCopies
  split
  · exact .address _ trivial rfl rfl
  split
  · exact .address _ trivial rfl rfl
  split
  · exact servers_kind cfg size trivial
  split
  · exact .name _ trivial rfl
  split
  · exact .name _ trivial rfl
  split
  · exact .name _ trivial rfl
  · exact .nil

theorem optionCopies_kind (cfg : Config) (code : UInt8) (oplen : Nat) :
    CopiesFor (fun x => x.code = code ∧ x.code ≠ 0) oplen (optionCopies cfg code oplen) := by
  unfold optionCopies
  split
  next hcode => exact .address _ ⟨hcode.symm, by decide⟩ rfl rfl
  split
  next hcode => exact .address _ ⟨hcode.1.symm, by decide⟩ rfl rfl
  split
  next hcode => exact .address _ ⟨hcode.symm, by decide⟩ rfl rfl
  split
  next hcode => exact servers_kind cfg oplen ⟨hcode.symm, by decide⟩
  split
  next hcode => exact .name _ ⟨hcode.symm, by decide⟩ rfl
  split
  next hcode => exact .name _ ⟨hcode.symm, by decide⟩ rfl
  split
  next hcode => exact .address _ ⟨hcode.1.symm, by decide⟩ rfl rfl
  split
  next hcode => exact .address _ ⟨hcode.symm, by decide⟩ rfl rfl
  split
  next hcode => exact .address _ ⟨hcode.symm, by decide⟩ rfl rfl
  · exact .nil

theorem optionCopies_copies (cfg : Config) (code : UInt8) (oplen : Nat) : Copies (optionCopies cfg code oplen) :=
  (optionCopies_kind cfg code oplen).copies

theorem Vars.isZero_other (h : v.put x s = some v') (hy : y ≠ x) : v'.isZero y = v.isZero y := by
  unfold Vars.isZero
  rw [(Vars.put_some h).1, Function.update_of_ne hy]

theorem runCopies_some_iff (h : Copies cs) : (∃ v', runCopies once pkt i cs v = some v') ↔
    ∀ c ∈ cs, c.Due once v → Loads pkt (i + c.off) c.len := by
  induction cs generalizing v with
  | nil => exact iff_of_true ⟨v, rfl⟩ fun _ hc => absurd hc not_mem_nil
  | cons c cs ih =>
    rw [forall_mem_cons, runCopies]
    by_cases hskip : (once && !v.isZero c.dest) = true
    · have hdue : ¬c.Due once v := by
        obtain ⟨honce, hset⟩ := Bool.and_eq_true_iff.mp hskip
        intro hdue
        rw [hdue honce] at hset
        cases hset
      rw [if_pos hskip, ih h.tail]
      exact ⟨fun hrest => ⟨fun hd => absurd hd hdue, hrest⟩, fun hall => hall.2⟩
    · have hdue : c.Due once v := by
        intro honce
        rw [honce, Bool.true_and, Bool.not_eq_true, Bool.not_eq_false'] at hskip
        exact hskip
      rw [if_neg hskip]
      by_cases hreads : Loads pkt (i + c.off) c.len
      · rw [loadAll_of_loads hreads]
        have hlen := (loadAll_some (loadAll_of_loads hreads)).2.2
        obtain ⟨v', hput⟩ := v.exists_put ((h.fits c mem_cons_self).stored hlen)
        simp only [Option.bind_eq_bind, Option.bind_some, hput]
        rw [ih h.tail]
        have hrest : ∀ d ∈ cs, d.Due once v' ↔ d.Due once v := by
          intro d hd
          unfold Copy.Due
          rw [Vars.isZero_other hput (h.ne d hd)]
        constructor
        · exact fun hall => ⟨fun _ => hreads, fun d hd hd' => hall d hd ((hrest d hd).mpr hd')⟩
        · exact fun hall d hd hd' => hall.2 d hd ((hrest d hd).mp hd')
      · rw [loadAll_none hreads]
        refine iff_of_false ?_ fun hall => hreads (hall.1 hdue)
        rintro ⟨_, h⟩
        cases h

theorem runCopies_bytes (h : Copies cs) (hrun : runCopies once pkt i cs v = some v') :
    v'.netBootFileSize = v.netBootFileSize ∧ (∀ x, (∀ c ∈ cs, c.dest ≠ x) → v'.bytes x = v.bytes x) ∧
      ∀ c ∈ cs, (c.Due once v → (c.value pkt i).length = c.len ∧
        v'.bytes c.dest = c.dest.filled (c.value pkt i) (v.bytes c.dest)) ∧
        (¬c.Due once v → v'.bytes c.dest = v.bytes c.dest) := by
  induction cs generalizing v with
  | nil =>
    cases hrun
    exact ⟨rfl, fun _ _ => rfl, fun _ hc => absurd hc not_mem_nil⟩
  | cons c cs ih =>
    rw [runCopies] at hrun
    split at hrun
    next hskip =>
      obtain ⟨hsize, hother, hrest⟩ := ih h.tail hrun
      refine ⟨hsize, fun x hx => hother x fun d hd => hx d (mem_cons_of_mem c hd), ?_⟩
      rw [forall_mem_cons]
      obtain ⟨honce, hset⟩ := Bool.and_eq_true_iff.mp hskip
      refine ⟨⟨fun hdue => ?_, fun _ => hother _ (h.ne)⟩, hrest⟩
      rw [hdue honce] at hset
      cases hset
    next hskip =>
      obtain ⟨s, hs, hrun⟩ := Option.bind_eq_some_iff.mp hrun
      obtain ⟨w, hput, hrun⟩ := Option.bind_eq_some_iff.mp hrun
      obtain ⟨_, hvalue, hlen⟩ := loadAll_some hs
      obtain ⟨hbytes, hfile⟩ := Vars.put_some hput
      obtain ⟨hsize, hother, hrest⟩ := ih h.tail hrun
      refine ⟨hsize.trans hfile, fun x hx => ?_, ?_⟩
      · rw [hother x fun d hd => hx d (mem_cons_of_mem c hd), hbytes,
          Function.update_of_ne (hx c mem_cons_self).symm]
      rw [forall_mem_cons]
      refine ⟨⟨fun _ => ⟨(congrArg List.length hvalue).symm.trans hlen, ?_⟩, fun hdue => ?_⟩, fun d hd => ?_⟩
      · rw [hother _ h.ne, hbytes, Function.update_self, hvalue]
        rfl
      · refine absurd (fun honce => ?_) hdue
        rw [honce, Bool.true_and, Bool.not_eq_true, Bool.not_eq_false'] at hskip
        exact hskip
      · obtain ⟨hdue, hnot⟩ := hrest d hd
        have hsame : w.bytes d.dest = v.bytes d.dest := by rw [hbytes, Function.update_of_ne (h.ne d hd)]
        have hiff : d.Due once w ↔ d.Due once v := by
          unfold Copy.Due
          rw [Vars.isZero_other hput (h.ne d hd)]
        rw [hiff, hsame] at hdue hnot
        exact ⟨hdue, hnot⟩

theorem runCopies_isZero (h : Copies cs) (hrun : runCopies true pkt i cs v = some v') :
    v'.isZero x = true ↔ v.isZero x = true ∧ ∀ c ∈ cs, c.dest = x → x.zero (c.value pkt i) = true := by
  obtain ⟨_, hother, hcopied⟩ := runCopies_bytes h hrun
  have hfill : ∀ c ∈ cs, c.Due true v → v'.isZero c.dest = c.dest.zero (c.value pkt i) := by
    intro c hc hdue
    obtain ⟨hlen, hbytes⟩ := (hcopied c hc).1 hdue
    unfold Vars.isZero
    rw [hbytes]
    exact (h.fits c hc).zero_filled hlen (v.size c.dest)
  have hkept : ∀ c ∈ cs, ¬c.Due true v → v'.isZero c.dest = v.isZero c.dest := fun c hc hdue =>
    congrArg c.dest.zero ((hcopied c hc).2 hdue)
  by_cases hany : ∃ c ∈ cs, c.dest = x
  · obtain ⟨c, hc, rfl⟩ := hany
    constructor
    · intro hzero
      have hdue : c.Due true v := by
        by_contra hnot
        exact hnot fun _ => (hkept c hc hnot).symm.trans hzero
      refine ⟨hdue rfl, fun d hd hdest => ?_⟩
      have hdue' : d.Due true v := fun _ => hdest ▸ hdue rfl
      rw [← hdest, ← hfill d hd hdue', hdest]
      exact hzero
    · rintro ⟨hzero, hvalues⟩
      rw [hfill c hc fun _ => hzero]
      exact hvalues c hc rfl
  · have hsame : v'.isZero x = v.isZero x := congrArg x.zero (hother x fun c hc heq => hany ⟨c, hc, heq⟩)
    rw [hsame]
    exact ⟨fun hzero => ⟨hzero, fun c hc heq => absurd ⟨c, hc, heq⟩ hany⟩, fun hzero => hzero.1⟩

open Loops Relation

variable {cfg : Config} {pkt : List UInt8} {v v' : Vars} {start stop p p' q : Nat} {x : Var}
variable {pkt' : List UInt8}

def MessageNext (pkt : List UInt8) (p q : Nat) : Prop :=
  pkt[p]? ≠ some 0xff ∧ pkt[p]? ≠ some 53 ∧ ∃ oplen, pkt[p + 1]? = some oplen ∧ q = p + oplen.toNat + 2

/-- What the scan reads for the option lies in the packet. -/
structure MessageGood (pkt : List UInt8) (p : Nat) : Prop where
  code : p < pkt.length
  type : pkt[p]? = some 53 → p + 2 < pkt.length
  oplen : pkt[p]? ≠ some 0xff → pkt[p]? ≠ some 53 → p + 1 < pkt.length

theorem exists_byte : (∃ c, pkt[p]? = some c) ↔ p < pkt.length := by
  rw [← Option.isSome_iff_exists, isSome_getElem?]

theorem outside_of_none (h : pkt[p]? = none) : ¬p < pkt.length := not_lt.mpr (List.getElem?_eq_none_iff.mp h)

theorem messageRound_cases (pkt : List UInt8) (p : Nat) : (¬MessageGood pkt p ∧ messageRound pkt p = none) ∨
    (MessageGood pkt p ∧ (∀ q, ¬MessageNext pkt p q) ∧ ∃ r, messageRound pkt p = some (.inr r)) ∨
    (MessageGood pkt p ∧ ∃ t, messageRound pkt p = some (.inl t) ∧ True ∧ pkt.length - t < pkt.length - p ∧
      ∀ q, MessageNext pkt p q ↔ q = t) := by
  unfold messageRound
  rcases hcode : pkt[p]? with _ | code
  · exact .inl ⟨fun h => outside_of_none hcode h.code, rfl⟩
  have hin : p < pkt.length := exists_byte.mp ⟨code, hcode⟩
  simp only [Option.bind_eq_bind, Option.bind_some]
  split
  next hend =>
    subst hend
    refine .inr (.inl ⟨⟨hin, fun h => ?_, fun h => absurd hcode h⟩, fun q h => h.1 hcode, _, rfl⟩)
    rw [hcode] at h
    cases h
  next hend =>
    have hend' : pkt[p]? ≠ some 0xff := fun h => hend (Option.some.inj (hcode.symm.trans h))
    split
    next htype =>
      subst htype
      rcases hvalue : pkt[p + 2]? with _ | value
      · exact .inl ⟨fun h => outside_of_none hvalue (h.type hcode), rfl⟩
      · have hfit : p + 2 < pkt.length := exists_byte.mp ⟨value, hvalue⟩
        exact .inr (.inl ⟨⟨hin, fun _ => hfit, fun _ h => absurd hcode h⟩, fun q h => h.2.1 hcode, _, rfl⟩)
    next htype =>
      have htype' : pkt[p]? ≠ some 53 := fun h => htype (Option.some.inj (hcode.symm.trans h))
      rcases hlen : pkt[p + 1]? with _ | oplen
      · exact .inl ⟨fun h => outside_of_none hlen (h.oplen hend' htype'), rfl⟩
      · have hfit : p + 1 < pkt.length := exists_byte.mp ⟨oplen, hlen⟩
        refine .inr (.inr ⟨⟨hin, fun h => absurd h htype', fun _ _ => hfit⟩, _, rfl, trivial, by omega, fun q => ?_⟩)
        constructor
        · rintro ⟨_, _, n, hn, hq⟩
          rw [hlen] at hn
          cases hn
          exact hq
        · exact fun hq => ⟨hend', htype', oplen, hlen, hq⟩

theorem messageLoop_safe_iff : (Comp.loop (fun p => Comp.round (messageRound pkt p)) start).Safe ↔
    ∀ p, ReflTransGen (MessageNext pkt) start p → MessageGood pkt p := by
  unfold Comp.Safe
  simp only [loop_returns_some]
  exact finishes_iff_good id (MessageNext pkt) (MessageGood pkt) (fun _ => True) (fun p => pkt.length - p)
    (fun p _ => messageRound_cases pkt p) trivial

def OptionNext (pkt : List UInt8) (stop p q : Nat) : Prop :=
  p < stop ∧ pkt[p]? ≠ some 0xff ∧ p < pkt.length ∧ ∃ oplen, pkt[p + 1]? = some oplen ∧ q = p + oplen.toNat + 2

/-- No name is in `bp_file` yet, nor does one come from an option that the walk has met. -/
def FileVacant (pkt : List UInt8) (start stop p : Nat) : Prop :=
  pkt[bpFile]? = some 0 ∧ ∀ q, ReflTransGen (OptionNext pkt stop) start q ∧ q < p → pkt[q]? = some 67 →
    pkt[q + 1]? = some 0 ∨ pkt[q + 2]? = some 0

/-- What is read for the option lies in the packet. -/
structure OptionGood (cfg : Config) (pkt : List UInt8) (start stop p : Nat) : Prop where
  code : p < pkt.length
  oplen : pkt[p]? ≠ some 0xff → p + 1 < pkt.length
  value : ∀ code oplen, pkt[p]? = some code → code ≠ 0xff → pkt[p + 1]? = some oplen →
    ∀ c ∈ optionCopies cfg code oplen.toNat, Loads pkt (p + 2 + c.off) c.len
  file : ∀ oplen, pkt[p]? = some 67 → pkt[p + 1]? = some oplen → FileVacant pkt start stop p →
    Loads pkt (p + 2) (truncateSz 128 oplen.toNat)

theorem optionNext_lt (h : OptionNext pkt stop p q) : p < q := by
  obtain ⟨_, _, _, oplen, _, rfl⟩ := h
  omega

theorem optionNext_unique (h : OptionNext pkt stop p q) (h' : OptionNext pkt stop p p') : q = p' := by
  obtain ⟨_, _, _, oplen, hlen, rfl⟩ := h
  obtain ⟨_, _, _, oplen', hlen', rfl⟩ := h'
  rw [hlen] at hlen'
  cases hlen'
  rfl

theorem fileVacant_next (hp : ReflTransGen (OptionNext pkt stop) start p) (hnext : OptionNext pkt stop p p') :
    FileVacant pkt start stop p' ↔ FileVacant pkt start stop p ∧
      (pkt[p]? = some 67 → pkt[p + 1]? = some 0 ∨ pkt[p + 2]? = some 0) := by
  unfold FileVacant
  rw [and_assoc]
  apply and_congr_right
  intro _
  exact forall_below optionNext_lt optionNext_unique hp hnext

/-- The packet differs from the one that came only in `bp_file`. -/
structure Kept (pkt pkt' : List UInt8) : Prop where
  length : pkt'.length = pkt.length
  options : pkt'.drop bpVend = pkt.drop bpVend

theorem Kept.byte (h : Kept pkt pkt') (hp : bpVend ≤ p) : pkt'[p]? = pkt[p]? := by
  have hbyte := congrArg (fun l => l[p - bpVend]?) h.options
  simp only [List.getElem?_drop, Nat.add_sub_cancel' hp] at hbyte
  exact hbyte

theorem Kept.loadAll (h : Kept pkt pkt') (hp : bpVend ≤ p) (n : Nat) :
    loadAll pkt' p n = loadAll pkt p n := by
  have hdrop : pkt'.drop p = pkt.drop p := by
    rw [← Nat.add_sub_cancel' hp, ← drop_drop, ← drop_drop, h.options]
  have hreads : Loads pkt' p n ↔ Loads pkt p n := by
    unfold Loads
    rw [h.length]
  unfold Cells.loadAll
  rw [hdrop]
  exact if_congr hreads rfl rfl

theorem Kept.runCopies (h : Kept pkt pkt') (hp : bpVend ≤ p) (cs : List Copy) (v : Vars) :
    runCopies false pkt' p cs v = runCopies false pkt p cs v := by
  induction cs generalizing v with
  | nil => rfl
  | cons c cs ih =>
    unfold Bootp.runCopies
    rw [h.loadAll (by omega)]
    simp only [ih]

theorem putFile_spec {name : List UInt8} (hlen : name.length < 128) (hin : bpVend ≤ pkt.length) :
    ∃ pkt', putFile pkt name = some pkt' ∧ Kept pkt pkt' ∧ pkt'[bpFile]? = some (name.headD 0) := by
  have hfit : bpFile + (name ++ [0]).length ≤ pkt.length := by
    rw [length_append, length_singleton]
    unfold bpFile bpVend at *
    omega
  refine ⟨splice pkt bpFile (name ++ [0]), ?_, ⟨splice_length hfit, ?_⟩, ?_⟩
  · unfold putFile
    rw [if_pos hlen, storeAll_eq_splice hfit]
  · apply splice_drop hfit
    rw [length_append, length_singleton]
    unfold bpFile bpVend
    omega
  · have htake : (pkt.take bpFile).length = bpFile := length_take_of_le (by omega)
    unfold splice
    rw [append_assoc, List.getElem?_append_right (by omega), htake, Nat.sub_self]
    cases name <;> rfl

theorem Kept.trans {a b c : List UInt8} (h : Kept a b) (h' : Kept b c) : Kept a c :=
  ⟨h'.length.trans h.length, h'.options.trans h.options⟩

theorem truncateSz_eq_zero : truncateSz 128 n = 0 ↔ n = 0 := by
  unfold truncateSz
  split <;> omega

theorem headD_value {size : Nat} (hsize : 0 < size) (hp : p < pkt.length) :
    ((pkt.drop p).take size).headD 0 = 0 ↔ pkt[p]? = some 0 := by
  obtain ⟨n, rfl⟩ : ∃ n, size = n + 1 := ⟨size - 1, by omega⟩
  rw [drop_eq_getElem_cons hp, take_succ_cons, headD_cons, List.getElem?_eq_getElem hp,
    Option.some.injEq]

theorem optionProcess_cases (code : UInt8) (oplen : Nat) {cur : List UInt8} (hkept : Kept pkt cur)
    (hp : bpVend ≤ p) (hin : bpVend ≤ pkt.length) (v : Vars) :
    (¬((∀ c ∈ optionCopies cfg code oplen, Loads pkt (p + 2 + c.off) c.len) ∧
        (code = 67 → cur[bpFile]? = some 0 → Loads pkt (p + 2) (truncateSz 128 oplen))) ∧
      optionProcess cfg code oplen p cur v = none) ∨
    ((∀ c ∈ optionCopies cfg code oplen, Loads pkt (p + 2 + c.off) c.len) ∧
      (code = 67 → cur[bpFile]? = some 0 → Loads pkt (p + 2) (truncateSz 128 oplen)) ∧
      ∃ cur' v', optionProcess cfg code oplen p cur v = some (cur', v') ∧ Kept pkt cur' ∧
        (cur'[bpFile]? = some 0 ↔ cur[bpFile]? = some 0 ∧ (code = 67 → oplen = 0 ∨ pkt[p + 2]? = some 0))) := by
  unfold optionProcess
  split
  next hcode =>
    have hcopies : optionCopies cfg code oplen = [] := by
      rw [hcode]
      rfl
    have hnone : ∀ c ∈ optionCopies cfg code oplen, Loads pkt (p + 2 + c.off) c.len := by
      rw [hcopies]
      exact fun _ hc => absurd hc not_mem_nil
    have hcur : bpFile < cur.length := by
      rw [hkept.length]
      exact lt_of_lt_of_le (by decide) hin
    obtain ⟨c, hc⟩ := exists_byte.mpr hcur
    simp only [hc, Option.bind_eq_bind, Option.bind_some, Option.some.injEq]
    split
    next hput =>
      obtain ⟨hzero, hsize⟩ := hput
      by_cases hreads : Loads pkt (p + 2) (truncateSz 128 oplen)
      · refine .inr ⟨hnone, fun _ _ => hreads, ?_⟩
        have hread := loadAll_of_loads hreads
        rw [hkept.loadAll (by omega), hread, Option.bind_some]
        have hname : ((pkt.drop (p + 2)).take (truncateSz 128 oplen)).length < 128 := by
          rw [(loadAll_some hread).2.2]
          exact truncateSz_lt oplen (by decide)
        obtain ⟨cur', hput, hnew, hbyte⟩ := putFile_spec hname (hkept.length.symm ▸ hin)
        rw [hput]
        refine ⟨cur', v, rfl, hkept.trans hnew, ?_⟩
        have hvalue : p + 2 < pkt.length := by
          rcases hreads with h | h <;> omega
        rw [hbyte, Option.some.injEq, headD_value hsize hvalue]
        have hlen : oplen ≠ 0 := fun h => ne_of_gt hsize (truncateSz_eq_zero.mpr h)
        exact ⟨fun h => ⟨hzero, fun _ => .inr h⟩, fun h => (h.2 hcode).resolve_left hlen⟩
      · refine .inl ⟨fun h => hreads (h.2 hcode hzero), ?_⟩
        rw [hkept.loadAll (by omega), loadAll_none hreads]
        rfl
    next hput =>
      have hreads : c = 0 → truncateSz 128 oplen = 0 := fun hzero => by
        by_contra hsize
        exact hput ⟨hzero, Nat.pos_of_ne_zero hsize⟩
      refine .inr ⟨hnone, fun _ h => .inl (hreads h), cur, v, rfl, hkept, ?_⟩
      rw [hc, Option.some.injEq]
      exact ⟨fun h => ⟨h, fun _ => .inl (truncateSz_eq_zero.mp (hreads h))⟩, fun h => h.1⟩
  next hcode =>
    have hiff : (∃ v', runCopies false pkt (p + 2) (optionCopies cfg code oplen) v = some v') ↔ _ :=
      runCopies_some_iff (optionCopies_copies cfg code oplen)
    rw [hkept.runCopies (by omega)]
    rcases hrun : runCopies false pkt (p + 2) (optionCopies cfg code oplen) v with _ | v'
    · refine .inl ⟨fun h => ?_, rfl⟩
      obtain ⟨v', hv'⟩ := hiff.mpr fun c hc _ => h.1 c hc
      rw [hrun] at hv'
      cases hv'
    · have hreads := hiff.mp ⟨v', hrun⟩
      refine .inr ⟨fun c hc => hreads c hc (fun h => absurd h Bool.false_ne_true), fun h => absurd h hcode, cur, v',
        rfl, hkept, ⟨fun h => ⟨h, fun h' => absurd h' hcode⟩, fun h => h.1⟩⟩

/-- The walk has come to `s` from the packet as it came. -/
structure Walk.From (pkt : List UInt8) (start stop : Nat) (s : Walk) : Prop where
  reached : ReflTransGen (OptionNext pkt stop) start s.popt
  kept : Kept pkt s.pkt
  file : s.pkt[bpFile]? = some 0 ↔ FileVacant pkt start stop s.popt

def OptionInside (cfg : Config) (pkt : List UInt8) (start stop p : Nat) : Prop :=
  p < stop → OptionGood cfg pkt start stop p

theorem optionsRound_cases (hstart : bpVend ≤ start) (hin : bpVend ≤ pkt.length) (s : Walk)
    (h : s.From pkt start stop) :
    (¬OptionInside cfg pkt start stop s.popt ∧ optionsRound cfg stop s = none) ∨
    (OptionInside cfg pkt start stop s.popt ∧ (∀ q, ¬OptionNext pkt stop s.popt q) ∧
      ∃ r, optionsRound cfg stop s = some (.inr r)) ∨
    (OptionInside cfg pkt start stop s.popt ∧ ∃ t, optionsRound cfg stop s = some (.inl t) ∧ t.From pkt start stop ∧
      pkt.length - t.popt < pkt.length - s.popt ∧ ∀ q, OptionNext pkt stop s.popt q ↔ q = t.popt) := by
  obtain ⟨p, cur, v⟩ := s
  obtain ⟨hreached, hkept, hfile⟩ := h
  have hlow : bpVend ≤ p := le_trans hstart (reached_le optionNext_lt hreached)
  unfold optionsRound
  split
  next hstop =>
    rw [hkept.byte hlow, hkept.byte (show bpVend ≤ p + 1 by omega)]
    rcases hcode : pkt[p]? with _ | code
    · exact .inl ⟨fun h => outside_of_none hcode (h hstop).code, rfl⟩
    have hbyte : p < pkt.length := exists_byte.mp ⟨code, hcode⟩
    simp only [Option.bind_eq_bind, Option.bind_some]
    split
    next hend =>
      subst hend
      refine .inr (.inl ⟨fun _ => ⟨hbyte, fun h => absurd hcode h, fun c _ hc hne => ?_, fun _ h => ?_⟩,
        fun q h => h.2.1 hcode, _, rfl⟩)
      · exact absurd (Option.some.inj (hc.symm.trans hcode)) hne
      · rw [hcode] at h
        cases h
    next hend =>
      have hend' : pkt[p]? ≠ some 0xff := fun h => hend (Option.some.inj (hcode.symm.trans h))
      rcases hlen : pkt[p + 1]? with _ | oplen
      · exact .inl ⟨fun h => outside_of_none hlen ((h hstop).oplen hend'), rfl⟩
      have hsecond : p + 1 < pkt.length := exists_byte.mp ⟨oplen, hlen⟩
      have hnext : OptionNext pkt stop p (p + oplen.toNat + 2) := ⟨hstop, hend', hbyte, oplen, hlen, rfl⟩
      rw [Option.bind_some]
      rcases @optionProcess_cases cfg pkt p code oplen.toNat cur hkept hlow hin v with
        ⟨hbad, hnone⟩ | ⟨hvalue, hname, cur', v', hdone, hkept', hbyte'⟩
      · rw [hnone]
        refine .inl ⟨fun h => hbad ⟨(h hstop).value code oplen hcode hend hlen, ?_⟩, rfl⟩
        rintro rfl hzero
        exact (h hstop).file oplen hcode hlen (hfile.mp hzero)
      · rw [hdone]
        refine .inr (.inr ⟨fun _ => ⟨hbyte, fun _ => hsecond, ?_, ?_⟩, _, rfl,
          ⟨hreached.tail hnext, hkept', ?_⟩, by dsimp only; omega, ?_⟩)
        · intro c n hc _ hn
          obtain rfl := Option.some.inj (hcode.symm.trans hc)
          obtain rfl := Option.some.inj (hlen.symm.trans hn)
          exact hvalue
        · intro n hc hn hvacant
          obtain rfl := Option.some.inj (hlen.symm.trans hn)
          exact hname (Option.some.inj (hcode.symm.trans hc)) (hfile.mpr hvacant)
        · rw [hbyte', hfile, fileVacant_next hreached hnext, hcode, hlen, Option.some.injEq, Option.some.injEq]
          have hzero : oplen.toNat = (0 : UInt8).toNat ↔ oplen = 0 := UInt8.toNat_inj
          exact and_congr_right fun _ => imp_congr_right fun _ => or_congr_left hzero
        · exact fun q => ⟨fun h => optionNext_unique h hnext, fun h => h ▸ hnext⟩
  next hstop =>
    exact .inr (.inl ⟨fun h => absurd h hstop, fun q h => hstop h.1, _, rfl⟩)

theorem dhcpOptionsProcess_safe_iff (hstart : bpVend ≤ start) (hin : bpVend ≤ pkt.length) :
    (dhcpOptionsProcess cfg start pkt v).Safe ↔ ∀ p, ReflTransGen (OptionNext pkt (start + bootpHdrSize)) start p →
      OptionInside cfg pkt start (start + bootpHdrSize) p := by
  unfold Comp.Safe dhcpOptionsProcess
  simp only [loop_returns_some]
  have hfrom : Walk.From pkt start (start + bootpHdrSize) ⟨start, pkt, v⟩ := by
    refine ⟨.refl, ⟨rfl, rfl⟩, ⟨fun h => ⟨h, fun q hq => ?_⟩, fun h => h.1⟩⟩
    exact absurd hq.2 (not_lt.mpr (reached_le optionNext_lt hq.1))
  exact finishes_iff_good Walk.popt (OptionNext pkt _) (OptionInside cfg pkt start _) (Walk.From pkt start _)
    (fun s => pkt.length - s.popt) (optionsRound_cases hstart hin) hfrom

end UBoot.Bootp
