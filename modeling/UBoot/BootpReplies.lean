import UBoot.BootpInside

namespace UBoot.Bootp

open Cells List Loops Relation
open Loops.Comp (returns_pure safe_bind)

variable {cfg : Config} {pkt : List UInt8} {v v' : Vars} {start stop p p' q : Nat} {x : Var}

/-- The walk over the vendor area goes on at the next option. -/
def VendorNext (pkt : List UInt8) (stop p q : Nat) : Prop :=
  p < stop ∧ p < pkt.length ∧ pkt[p]? ≠ some 0xff ∧ (pkt[p]? = some 0 ∧ q = p + 1 ∨
    pkt[p]? ≠ some 0 ∧ ∃ len, pkt[p + 1]? = some len ∧ q = p + len.toNat + 2)

/-- What may be copied for the option at `p`: nothing if it goes past `stop`. -/
def vendorAt (cfg : Config) (pkt : List UInt8) (stop p : Nat) : List Copy :=
  match pkt[p]?, pkt[p + 1]? with
  | some code, some len => if p + len.toNat + 2 ≤ stop then vendorCopies cfg code len.toNat else []
  | _, _ => []

/-- The variable is zero, and the options that the walk has met have no other value for it. -/
def Vacant (cfg : Config) (pkt : List UInt8) (start stop : Nat) (v : Vars) (x : Var) (p : Nat) : Prop :=
  v.isZero x = true ∧ ∀ q, ReflTransGen (VendorNext pkt stop) start q ∧ q < p →
    ∀ c ∈ vendorAt cfg pkt stop q, c.dest = x → x.zero (c.value pkt (q + 2)) = true

/-- What is read for the option lies in the packet. -/
structure VendorGood (cfg : Config) (pkt : List UInt8) (start stop : Nat) (v : Vars) (p : Nat) : Prop where
  code : p < pkt.length
  len : pkt[p]? ≠ some 0xff → pkt[p]? ≠ some 0 → p + 1 < pkt.length
  fileSize : ∀ len, pkt[p]? = some 13 → pkt[p + 1]? = some len → p + len.toNat + 2 ≤ stop → len = 2 ∨ len = 4 →
    Loads pkt (p + 2) len.toNat
  value : ∀ c ∈ vendorAt cfg pkt stop p, Vacant cfg pkt start stop v c.dest p → Loads pkt (p + 2 + c.off) c.len

theorem vendorNext_lt (h : VendorNext pkt stop p q) : p < q := by
  obtain ⟨_, _, _, ⟨_, rfl⟩ | ⟨_, len, _, rfl⟩⟩ := h <;> omega

theorem vendorNext_unique (h : VendorNext pkt stop p q) (h' : VendorNext pkt stop p p') : q = p' := by
  obtain ⟨_, _, _, h⟩ := h
  obtain ⟨_, _, _, h'⟩ := h'
  rcases h with ⟨hcode, rfl⟩ | ⟨hcode, len, hlen, rfl⟩
  · rcases h' with ⟨_, rfl⟩ | ⟨hcode', _⟩
    · rfl
    · exact absurd hcode hcode'
  · rcases h' with ⟨hcode', _⟩ | ⟨_, len', hlen', rfl⟩
    · exact absurd hcode' hcode
    · rw [hlen] at hlen'
      cases hlen'
      rfl

theorem vacant_next (hp : ReflTransGen (VendorNext pkt stop) start p) (hnext : VendorNext pkt stop p p') :
    Vacant cfg pkt start stop v x p' ↔ Vacant cfg pkt start stop v x p ∧
      ∀ c ∈ vendorAt cfg pkt stop p, c.dest = x → x.zero (c.value pkt (p + 2)) = true := by
  unfold Vacant
  rw [and_assoc]
  apply and_congr_right
  intro _
  exact forall_below vendorNext_lt vendorNext_unique hp hnext

theorem vendorField_cases (cfg : Config) {code len : UInt8} (hcode : pkt[p]? = some code)
    (hlen : pkt[p + 1]? = some len) (v : Vars) :
    (¬((code = 13 → len = 2 ∨ len = 4 → Loads pkt (p + 2) len.toNat) ∧
        ∀ c ∈ vendorCopies cfg code len.toNat, v.isZero c.dest = true → Loads pkt (p + 2 + c.off) c.len) ∧
      bootpVendorFieldProcess cfg pkt p v = none) ∨
    ((code = 13 → len = 2 ∨ len = 4 → Loads pkt (p + 2) len.toNat) ∧
      (∀ c ∈ vendorCopies cfg code len.toNat, v.isZero c.dest = true → Loads pkt (p + 2 + c.off) c.len) ∧
      ∃ v', bootpVendorFieldProcess cfg pkt p v = some v' ∧ ∀ x, v'.isZero x = true ↔
        v.isZero x = true ∧ ∀ c ∈ vendorCopies cfg code len.toNat, c.dest = x →
          x.zero (c.value pkt (p + 2)) = true) := by
  unfold bootpVendorFieldProcess
  simp only [hcode, hlen, Option.bind_eq_bind, Option.bind_some]
  split
  next hsize =>
    have hnone : vendorCopies cfg code len.toNat = [] := by
      rw [hsize]
      rfl
    rw [hnone]
    have hall : ∀ {P : Copy → Prop}, ∀ c ∈ ([] : List Copy), P c := fun c hc => absurd hc not_mem_nil
    split
    next htwo =>
      by_cases hreads : Loads pkt (p + 2) len.toNat
      · rw [loadAll_of_loads hreads]
        exact .inr ⟨fun _ _ => hreads, hall, _, rfl, fun x => ⟨fun h => ⟨h, hall⟩, fun h => h.1⟩⟩
      · rw [loadAll_none hreads]
        exact .inl ⟨fun h => hreads (h.1 hsize htwo), rfl⟩
    next htwo =>
      exact .inr ⟨fun _ h => absurd h htwo, hall, _, rfl, fun x => ⟨fun h => ⟨h, hall⟩, fun h => h.1⟩⟩
  next hsize =>
    have hcopies := vendorCopies_copies cfg code len.toNat
    have hiff : (∃ v', runCopies true pkt (p + 2) (vendorCopies cfg code len.toNat)
        { v with netBootFileSize := 0 } = some v') ↔ _ := runCopies_some_iff hcopies
    rcases hrun : runCopies true pkt (p + 2) (vendorCopies cfg code len.toNat) { v with netBootFileSize := 0 } with
      _ | v'
    · refine .inl ⟨fun h => ?_, rfl⟩
      obtain ⟨v', hv'⟩ := hiff.mpr fun c hc hdue => h.2 c hc (hdue rfl)
      rw [hrun] at hv'
      cases hv'
    · have hreads := hiff.mp ⟨v', hrun⟩
      exact .inr ⟨fun h => absurd h hsize, fun c hc hzero => hreads c hc fun _ => hzero, v', rfl,
        fun x => runCopies_isZero (v := { v with netBootFileSize := 0 }) hcopies hrun⟩

/-- The walk has come to `s` with variables that are zero where no option has set them. -/
structure VendorFrom (cfg : Config) (pkt : List UInt8) (start stop : Nat) (v : Vars) (s : Nat × Vars) : Prop where
  reached : ReflTransGen (VendorNext pkt stop) start s.1
  zero : ∀ x, s.2.isZero x = true ↔ Vacant cfg pkt start stop v x s.1

def VendorInside (cfg : Config) (pkt : List UInt8) (start stop : Nat) (v : Vars) (p : Nat) : Prop :=
  p < stop → VendorGood cfg pkt start stop v p

theorem vendorAt_of {code len : UInt8} (hcode : pkt[p]? = some code) (hlen : pkt[p + 1]? = some len) :
    vendorAt cfg pkt stop p = if p + len.toNat + 2 ≤ stop then vendorCopies cfg code len.toNat else [] := by
  unfold vendorAt
  rw [hcode, hlen]

theorem vendorAt_nil {code : UInt8} (hcode : pkt[p]? = some code) (h : code = 0 ∨ code = 0xff) :
    vendorAt cfg pkt stop p = [] := by
  unfold vendorAt
  rw [hcode]
  cases pkt[p + 1]? with
  | none => rfl
  | some len =>
    dsimp only
    split
    · rcases h with rfl | rfl <;> rfl
    · rfl

theorem VendorGood.of_nil (hcode : p < pkt.length) (hlen : pkt[p]? ≠ some 0xff → pkt[p]? ≠ some 0 → p + 1 < pkt.length)
    (hfile : ∀ len, pkt[p]? = some 13 → pkt[p + 1]? = some len → ¬p + len.toNat + 2 ≤ stop)
    (hnil : vendorAt cfg pkt stop p = []) : VendorGood cfg pkt start stop v p := by
  refine ⟨hcode, hlen, fun len hthirteen hn hfits => absurd hfits (hfile len hthirteen hn), ?_⟩
  rw [hnil]
  exact fun c hc => absurd hc not_mem_nil

theorem VendorFrom.next {w w' : Vars} (h : VendorFrom cfg pkt start stop v (p, w)) (hnext : VendorNext pkt stop p p')
    (hset : ∀ x, w'.isZero x = true ↔ w.isZero x = true ∧
      ∀ c ∈ vendorAt cfg pkt stop p, c.dest = x → x.zero (c.value pkt (p + 2)) = true) :
    VendorFrom cfg pkt start stop v (p', w') ∧ pkt.length - p' < pkt.length - p ∧
      ∀ q, VendorNext pkt stop p q ↔ q = p' := by
  have hbyte : p < pkt.length := hnext.2.1
  have hup := vendorNext_lt hnext
  refine ⟨⟨h.reached.tail hnext, fun x => ?_⟩, by omega, fun q => ⟨fun h => vendorNext_unique h hnext, ?_⟩⟩
  · rw [hset, h.zero, vacant_next h.reached hnext]
  · rintro rfl
    exact hnext

theorem VendorFrom.skip {w : Vars} (h : VendorFrom cfg pkt start stop v (p, w)) (hnext : VendorNext pkt stop p p')
    (hnil : vendorAt cfg pkt stop p = []) : VendorFrom cfg pkt start stop v (p', w) ∧
      pkt.length - p' < pkt.length - p ∧ ∀ q, VendorNext pkt stop p q ↔ q = p' := by
  apply h.next hnext
  intro x
  rw [hnil]
  exact ⟨fun h => ⟨h, fun c hc => absurd hc not_mem_nil⟩, fun h => h.1⟩

theorem vendorRound_cases (s : Nat × Vars) (h : VendorFrom cfg pkt start stop v s) :
    (¬VendorInside cfg pkt start stop v s.1 ∧ vendorRound cfg pkt stop s = none) ∨
    (VendorInside cfg pkt start stop v s.1 ∧ (∀ q, ¬VendorNext pkt stop s.1 q) ∧
      ∃ r, vendorRound cfg pkt stop s = some (.inr r)) ∨
    (VendorInside cfg pkt start stop v s.1 ∧ ∃ t, vendorRound cfg pkt stop s = some (.inl t) ∧
      VendorFrom cfg pkt start stop v t ∧ pkt.length - t.1 < pkt.length - s.1 ∧
      ∀ q, VendorNext pkt stop s.1 q ↔ q = t.1) := by
  obtain ⟨p, w⟩ := s
  have hzero := h.zero
  unfold vendorRound
  split
  next hstop =>
    rcases hcode : pkt[p]? with _ | code
    · exact .inl ⟨fun h => outside_of_none hcode (h hstop).code, rfl⟩
    have hbyte : p < pkt.length := exists_byte.mp ⟨code, hcode⟩
    have hthirteen : ∀ {n}, pkt[p]? = some n → code = n := fun h => Option.some.inj (hcode.symm.trans h)
    simp only [Option.bind_eq_bind, Option.bind_some]
    split
    next hend =>
      have hnil := @vendorAt_nil cfg pkt stop p _ hcode (.inr hend)
      subst hend
      refine .inr (.inl ⟨fun _ => .of_nil hbyte (fun h => absurd hcode h) (fun _ h => ?_) hnil,
        fun q h => h.2.2.1 hcode, _, rfl⟩)
      exact absurd (hthirteen h) (by decide)
    next hend =>
      have hend' : pkt[p]? ≠ some 0xff := fun h => hend (hthirteen h)
      split
      next hpad =>
        have hnil := @vendorAt_nil cfg pkt stop p _ hcode (.inl hpad)
        subst hpad
        have hnext : VendorNext pkt stop p (p + 1) := ⟨hstop, hbyte, hend', .inl ⟨hcode, rfl⟩⟩
        refine .inr (.inr ⟨fun _ => .of_nil hbyte (fun _ h => absurd hcode h) (fun _ h => ?_) hnil, _, rfl,
          h.skip hnext hnil⟩)
        exact absurd (hthirteen h) (by decide)
      next hpad =>
        have hpad' : pkt[p]? ≠ some 0 := fun h => hpad (hthirteen h)
        rcases hlen : pkt[p + 1]? with _ | len
        · exact .inl ⟨fun h => outside_of_none hlen ((h hstop).len hend' hpad'), rfl⟩
        have hsecond : p + 1 < pkt.length := exists_byte.mp ⟨len, hlen⟩
        have hnext : VendorNext pkt stop p (p + len.toNat + 2) :=
          ⟨hstop, hbyte, hend', .inr ⟨hpad', len, hlen, rfl⟩⟩
        have hat := @vendorAt_of cfg pkt stop p _ _ hcode hlen
        rw [Option.bind_some]
        split
        next hfits =>
          rw [if_pos hfits] at hat
          rcases vendorField_cases cfg hcode hlen w with ⟨hbad, hnone⟩ | ⟨hfile, hvalue, w', hdone, hnew⟩
          · rw [hnone]
            refine .inl ⟨fun h => hbad ⟨fun hthirteen => ?_, fun c hc hfree => ?_⟩, rfl⟩
            · exact (h hstop).fileSize len (hthirteen ▸ hcode) hlen hfits
            · exact (h hstop).value c (hat ▸ hc) ((hzero c.dest).mp hfree)
          · rw [hdone]
            rw [← hat] at hnew
            refine .inr (.inr ⟨fun _ => ⟨hbyte, fun _ _ => hsecond, ?_, ?_⟩, _, rfl, h.next hnext hnew⟩)
            · intro n hn hlen' _
              obtain rfl := Option.some.inj (hlen.symm.trans hlen')
              exact hfile (hthirteen hn)
            · exact fun c hc hfree => hvalue c (hat ▸ hc) ((hzero c.dest).mpr hfree)
        next hpast =>
          rw [if_neg hpast] at hat
          refine .inr (.inr ⟨fun _ => .of_nil hbyte (fun _ _ => hsecond) (fun n _ hn => ?_) hat, _, rfl,
            h.skip hnext hat⟩)
          obtain rfl := Option.some.inj (hlen.symm.trans hn)
          exact hpast
  next hstop =>
    exact .inr (.inl ⟨fun h => absurd h hstop, fun q h => hstop h.1, _, rfl⟩)

theorem bootpVendorProcess_safe_iff {size : Nat} : (bootpVendorProcess cfg pkt start size v).Safe ↔
    ∀ p, ReflTransGen (VendorNext pkt (start + size)) start p → VendorInside cfg pkt start (start + size) v p := by
  unfold Comp.Safe bootpVendorProcess
  simp only [loop_returns_some]
  have hfrom : VendorFrom cfg pkt start (start + size) v (start, v) := by
    refine ⟨.refl, fun x => ⟨fun h => ⟨h, fun q hq => ?_⟩, fun h => h.1⟩⟩
    exact absurd hq.2 (not_lt.mpr (reached_le vendorNext_lt hq.1))
  exact finishes_iff_good Prod.fst (VendorNext pkt _) (VendorInside cfg pkt start _ v) (VendorFrom cfg pkt start _ v)
    (fun s => pkt.length - s.1) vendorRound_cases hfrom

theorem copyFilename_length (name : List UInt8) : (copyFilename name 128).length < 128 := by
  unfold copyFilename
  split
  all_goals
    rw [length_take]
    exact lt_of_le_of_lt (Nat.min_le_left _ _) (by decide)

theorem exists_cstrAt {d : List UInt8} {i : Nat} : (∃ s, cstrAt d i = some s) ↔ 0 ∈ d.drop i := by
  constructor
  · rintro ⟨s, h⟩
    obtain ⟨_, t, ht⟩ := cstrAt_some h
    rw [ht]
    exact mem_append_right _ mem_cons_self
  · intro h
    obtain ⟨s, t, ht, hs⟩ := eq_append_cons_of_mem h
    unfold cstrAt
    rw [ht, strEnd_append hs]
    exact ⟨_, rfl⟩

/-- A variable that comes from the header, and not from an option. -/
def Var.InHeader (x : Var) : Prop := x = .netOurIP ∨ x = .netServerIP ∨ x = .netServerEther ∨ x = .bootFile

theorem Vars.put_header {s : List UInt8} (v : Vars) (hx : x.InHeader) (hlen : (x.stored s).length ≤ x.size) :
    ∃ v', v.put x s = some v' ∧ ∀ y, ¬y.InHeader → v'.bytes y = v.bytes y := by
  obtain ⟨v', hput⟩ := v.exists_put hlen
  refine ⟨v', hput, fun y hy => ?_⟩
  rw [(Vars.put_some hput).1, Function.update_of_ne]
  rintro rfl
  exact hy hx

theorem loadAll_four (i : Nat) (hi : i + 4 ≤ pkt.length) : ∃ s, loadAll pkt i 4 = some s ∧ s.length = 4 := by
  have hread : loadAll pkt i 4 = some _ := loadAll_of_loads (.inr hi)
  exact ⟨_, hread, (loadAll_some hread).2.2⟩

theorem copyServer_spec (cfg : Config) (etSrc : Fin 6 → UInt8) (hin : bpVend ≤ pkt.length) (v : Vars) :
    ∃ v', copyServer cfg etSrc pkt v = some v' ∧ ∀ x, ¬x.InHeader → v'.bytes x = v.bytes x := by
  have hether : (Var.stored .netServerEther (List.ofFn etSrc)).length ≤ 6 := le_of_eq length_ofFn
  obtain ⟨siaddr, hread, hlen⟩ := loadAll_four 20 (le_trans (by decide) hin)
  unfold copyServer
  split
  · exact ⟨v, rfl, fun _ _ => rfl⟩
  · rw [hread]
    simp only [Option.bind_eq_bind, Option.bind_some]
    split
    · exact v.put_header (.inr (.inr (.inl rfl))) hether
    · obtain ⟨v₁, hv₁, hkept₁⟩ := v.put_header (x := .netServerIP) (.inr (.inl rfl)) (le_of_eq hlen)
      obtain ⟨v₂, hv₂, hkept₂⟩ := v₁.put_header (.inr (.inr (.inl rfl))) hether
      rw [hv₁]
      exact ⟨v₂, hv₂, fun x hx => (hkept₂ x hx).trans (hkept₁ x hx)⟩

theorem copyBootFile_cases (pkt : List UInt8) (v : Vars) : (0 ∉ pkt.drop bpFile ∧ copyBootFile pkt v = none) ∨
    (0 ∈ pkt.drop bpFile ∧ ∃ v', copyBootFile pkt v = some v' ∧ ∀ x, ¬x.InHeader → v'.bytes x = v.bytes x) := by
  unfold copyBootFile
  rcases hfile : cstrAt pkt bpFile with _ | file
  · refine .inl ⟨fun h => ?_, rfl⟩
    obtain ⟨s, hs⟩ := exists_cstrAt.mpr h
    rw [hfile] at hs
    cases hs
  · refine .inr ⟨exists_cstrAt.mp ⟨file, hfile⟩, ?_⟩
    rw [Option.bind_eq_bind, Option.bind_some]
    split
    · exact ⟨v, rfl, fun _ _ => rfl⟩
    · refine v.put_header (.inr (.inr (.inr rfl))) ?_
      rw [Var.stored_length]
      exact copyFilename_length file

theorem bootpCopyNetParams_cases (cfg : Config) (etSrc : Fin 6 → UInt8) (hin : bpVend ≤ pkt.length) (v : Vars) :
    (0 ∉ pkt.drop bpFile ∧ bootpCopyNetParams cfg etSrc pkt v = none) ∨
    (0 ∈ pkt.drop bpFile ∧ ∃ v' name, bootpCopyNetParams cfg etSrc pkt v = some (v', name) ∧
      ∀ x, ¬x.InHeader → v'.bytes x = v.bytes x) := by
  obtain ⟨yiaddr, hread, hlen⟩ := loadAll_four 16 (le_trans (by decide) hin)
  obtain ⟨v₁, hv₁, hkept₁⟩ := v.put_header (x := .netOurIP) (.inl rfl) (le_of_eq hlen)
  obtain ⟨v₂, hv₂, hkept₂⟩ := copyServer_spec cfg etSrc hin v₁
  unfold bootpCopyNetParams
  rw [hread]
  simp only [Option.bind_eq_bind, Option.bind_some]
  rw [hv₁, Option.bind_some, hv₂, Option.bind_some]
  rcases copyBootFile_cases pkt v₂ with ⟨hnul, hfail⟩ | ⟨hnul, v₃, hv₃, hkept₃⟩
  · rw [hfail]
    exact .inl ⟨hnul, rfl⟩
  · obtain ⟨name, hname⟩ : ∃ name, cstrAt (v₃.bytes .bootFile) 0 = some name :=
      exists_cstrAt.mpr (v₃.ended .bootFile rfl)
    rw [hv₃, Option.bind_some, hname, Option.bind_some]
    exact .inr ⟨hnul, v₃, _, rfl, fun x hx => (hkept₃ x hx).trans ((hkept₂ x hx).trans (hkept₁ x hx))⟩

theorem vendorAt_dest : ∀ c ∈ vendorAt cfg pkt stop p, ¬c.dest.InHeader := by
  have hip : ∀ (x : Var) (off : Nat), ¬x.InHeader → ∀ c ∈ [copyIP x off], ¬c.dest.InHeader := by
    intro x off hx c hc
    rw [mem_singleton.mp hc]
    exact hx
  have hstring : ∀ (x : Var) (size : Nat), ¬x.InHeader → ∀ c ∈ [copyString x size], ¬c.dest.InHeader := by
    intro x off hx c hc
    rw [mem_singleton.mp hc]
    exact hx
  unfold vendorAt
  split
  next code len _ _ =>
    split
    · unfold vendorCopies
      unfold Var.InHeader at *
      split
      · exact hip _ _ (by decide)
      split
      · exact hip _ _ (by decide)
      split
      · split
        · rw [forall_mem_cons]
          exact ⟨by decide, hip _ _ (by decide)⟩
        · exact hip _ _ (by decide)
      split
      · exact hstring _ _ (by decide)
      split
      · exact hstring _ _ (by decide)
      split
      · exact hstring _ _ (by decide)
      · exact fun c hc => absurd hc not_mem_nil
    · exact fun c hc => absurd hc not_mem_nil
  · exact fun c hc => absurd hc not_mem_nil

theorem vendorInside_congr (h : ∀ x, ¬x.InHeader → v'.bytes x = v.bytes x) :
    VendorInside cfg pkt start stop v' p ↔ VendorInside cfg pkt start stop v p := by
  have hvacant : ∀ c ∈ vendorAt cfg pkt stop p,
      (Vacant cfg pkt start stop v' c.dest p ↔ Vacant cfg pkt start stop v c.dest p) := by
    intro c hc
    unfold Vacant Vars.isZero
    rw [h c.dest (vendorAt_dest c hc)]
  refine imp_congr_right fun _ => ⟨fun hgood => ?_, fun hgood => ?_⟩
  · exact ⟨hgood.code, hgood.len, hgood.fileSize, fun c hc hv => hgood.value c hc ((hvacant c hc).mpr hv)⟩
  · exact ⟨hgood.code, hgood.len, hgood.fileSize, fun c hc hv => hgood.value c hc ((hvacant c hc).mp hv)⟩

theorem optionProcess_nul {code : UInt8} {oplen : Nat} {cur : List UInt8}
    (h : optionProcess cfg code oplen p pkt v = some (cur, v')) (hnul : 0 ∈ pkt.drop bpFile) :
    0 ∈ cur.drop bpFile ∧ cur.length = pkt.length := by
  unfold optionProcess at h
  split at h
  · obtain ⟨c, _, h⟩ := Option.bind_eq_some_iff.mp h
    split at h
    · obtain ⟨s, _, h⟩ := Option.bind_eq_some_iff.mp h
      obtain ⟨cur', hput, h⟩ := Option.bind_eq_some_iff.mp h
      cases h
      unfold putFile at hput
      split at hput
      · have hfit := storeAll_fits (append_ne_nil_of_right_ne_nil s (cons_ne_nil 0 [])) hput
        refine ⟨?_, storeAll_length hput⟩
        rw [storeAll_eq_splice hfit] at hput
        rw [← Option.some.inj hput]
        have htake : (pkt.take bpFile).length = bpFile := length_take_of_le (by omega)
        unfold splice
        rw [append_assoc, drop_left' htake]
        exact mem_append_left _ (mem_append_right _ mem_cons_self)
      · cases hput
    · cases h
      exact ⟨hnul, rfl⟩
  · obtain ⟨_, _, h⟩ := Option.bind_eq_some_iff.mp h
    cases h
    exact ⟨hnul, rfl⟩

theorem options_nul {s : Walk} {r : List UInt8 × Vars} (h : Finishes (optionsRound cfg stop) s r)
    (hnul : 0 ∈ s.pkt.drop bpFile) : 0 ∈ r.1.drop bpFile ∧ r.1.length = s.pkt.length := by
  induction h with
  | @done s r h =>
    unfold optionsRound at h
    split at h
    · obtain ⟨code, _, h⟩ := Option.bind_eq_some_iff.mp h
      split at h
      · cases h
        exact ⟨hnul, rfl⟩
      · obtain ⟨oplen, _, h⟩ := Option.bind_eq_some_iff.mp h
        obtain ⟨⟨cur, w⟩, _, h⟩ := Option.bind_eq_some_iff.mp h
        cases h
    · cases h
      exact ⟨hnul, rfl⟩
  | @again s t r h _ ih =>
    unfold optionsRound at h
    split at h
    · obtain ⟨code, _, h⟩ := Option.bind_eq_some_iff.mp h
      split at h
      · cases h
      · obtain ⟨oplen, _, h⟩ := Option.bind_eq_some_iff.mp h
        obtain ⟨⟨cur, w⟩, hdone, h⟩ := Option.bind_eq_some_iff.mp h
        cases h
        obtain ⟨hnul', hlen⟩ := optionProcess_nul hdone hnul
        obtain ⟨hlast, hsame⟩ := ih hnul'
        exact ⟨hlast, hsame.trans hlen⟩
    · cases h

def cookie (pkt : List UInt8) : List UInt8 := (pkt.drop bpVend).take 4

/-- All that is read for a reply lies in the packet: a NUL behind `bp_file`, the cookie, and what the walks over the
options behind the cookie come to. -/
structure RepliesInside (cfg : Config) (pkt : List UInt8) (v : Vars) : Prop where
  name : 0 ∈ pkt.drop bpFile
  cookie : bpVend + 4 ≤ pkt.length
  vendor : Bootp.cookie pkt = bootpVendorMagic →
    ∀ p, ReflTransGen (VendorNext pkt (bpVend + 4 + pkt.length)) (bpVend + 4) p →
      VendorInside cfg pkt (bpVend + 4) (bpVend + 4 + pkt.length) v p
  options : Bootp.cookie pkt = bootpVendorMagic →
    ∀ p, ReflTransGen (OptionNext pkt (bpVend + 4 + bootpHdrSize)) (bpVend + 4) p →
      OptionInside cfg pkt (bpVend + 4) (bpVend + 4 + bootpHdrSize) p
  message : Bootp.cookie pkt = bootpVendorMagic →
    ∀ p, ReflTransGen (MessageNext pkt) (bpVend + 4) p → MessageGood pkt p

theorem safe_read {α β : Type} {x : Option α} {k : α → Comp (Option β)} :
    ((Comp.pure x).andThen k).Safe ↔ ∃ a, x = some a ∧ (k a).Safe := by
  rw [safe_bind]
  exact exists_congr fun a => and_congr_left fun _ => Comp.returns_pure_iff.trans eq_comm

theorem safe_cookie {β : Type} {k : List UInt8 → Comp (Option β)} :
    ((Comp.pure (loadAll pkt bpVend 4)).andThen k).Safe ↔ bpVend + 4 ≤ pkt.length ∧ (k (cookie pkt)).Safe := by
  rw [safe_read]
  constructor
  · rintro ⟨a, ha, hk⟩
    obtain ⟨hreads, rfl, _⟩ := loadAll_some ha
    exact ⟨hreads.resolve_left (by decide), hk⟩
  · rintro ⟨hin, hk⟩
    exact ⟨_, loadAll_of_loads (.inr hin), hk⟩

theorem bootpHandler_safe_iff {bootpID : List UInt8} {etSrc : Fin 6 → UInt8} {dest src : Nat}
    (h : bootpCheckPkt bootpID pkt dest src = 0) (hin : bpVend ≤ pkt.length) :
    (bootpHandler cfg bootpID etSrc pkt dest src v).Safe ↔ 0 ∈ pkt.drop bpFile ∧ bpVend + 4 ≤ pkt.length ∧
      (cookie pkt = bootpVendorMagic → ∀ p, ReflTransGen (VendorNext pkt (bpVend + 4 + pkt.length)) (bpVend + 4) p →
        VendorInside cfg pkt (bpVend + 4) (bpVend + 4 + pkt.length) v p) := by
  unfold bootpHandler
  rw [if_neg (not_not.mpr h), safe_read]
  rcases bootpCopyNetParams_cases cfg etSrc hin v with ⟨hnul, hfail⟩ | ⟨hnul, v', name, hdone, hkept⟩
  · rw [hfail]
    exact iff_of_false (fun ⟨_, h, _⟩ => nomatch h) fun h => hnul h.1
  · rw [hdone]
    constructor
    · rintro ⟨r, hr, hsafe⟩
      cases hr
      obtain ⟨hcookie, hrest⟩ := safe_cookie.mp hsafe
      refine ⟨hnul, hcookie, fun hmagic p hp => ?_⟩
      rw [if_pos hmagic] at hrest
      obtain ⟨w, hw, _⟩ := safe_bind.mp hrest
      exact (vendorInside_congr hkept).mp (bootpVendorProcess_safe_iff.mp ⟨w, hw⟩ p hp)
    · rintro ⟨_, hcookie, hrest⟩
      refine ⟨_, rfl, safe_cookie.mpr ⟨hcookie, ?_⟩⟩
      split
      next hmagic =>
        obtain ⟨w, hw⟩ := bootpVendorProcess_safe_iff.mpr fun p hp => (vendorInside_congr hkept).mpr (hrest hmagic p hp)
        exact safe_bind.mpr ⟨w, hw, _, returns_pure _⟩
      · exact ⟨_, returns_pure _⟩

theorem dhcpOptions_safe_iff (hin : bpVend ≤ pkt.length) : (dhcpOptions cfg pkt v).Safe ↔ bpVend + 4 ≤ pkt.length ∧
    (cookie pkt = bootpVendorMagic → ∀ p, ReflTransGen (OptionNext pkt (bpVend + 4 + bootpHdrSize)) (bpVend + 4) p →
      OptionInside cfg pkt (bpVend + 4) (bpVend + 4 + bootpHdrSize) p) := by
  unfold dhcpOptions
  rw [safe_cookie]
  refine and_congr_right fun _ => ?_
  split
  next hmagic =>
    rw [dhcpOptionsProcess_safe_iff (Nat.le_add_right _ _) hin]
    exact ⟨fun h _ => h, fun h => h hmagic⟩
  next hmagic => exact iff_of_true ⟨_, returns_pure _⟩ fun h => absurd h hmagic

theorem dhcpMessageType_safe_iff : (dhcpMessageType pkt bpVend).Safe ↔ bpVend + 4 ≤ pkt.length ∧
    (cookie pkt = bootpVendorMagic → ∀ p, ReflTransGen (MessageNext pkt) (bpVend + 4) p → MessageGood pkt p) := by
  unfold dhcpMessageType
  rw [safe_cookie]
  refine and_congr_right fun _ => ?_
  split
  next hother => exact iff_of_true ⟨_, returns_pure _⟩ fun h => absurd h hother
  next hmagic =>
    rw [messageLoop_safe_iff]
    exact ⟨fun h _ => h, fun h => h (not_not.mp hmagic)⟩

theorem dhcpOptions_name {cur : List UInt8} (h : (dhcpOptions cfg pkt v).Returns (some (cur, v')))
    (hnul : 0 ∈ pkt.drop bpFile) : 0 ∈ cur.drop bpFile ∧ cur.length = pkt.length := by
  unfold dhcpOptions at h
  obtain ⟨x, hx, h⟩ := Comp.returns_bind.mp h
  cases x with
  | none => cases Comp.returns_pure_iff.mp h
  | some a =>
    change (if a = bootpVendorMagic then _ else _ : Comp (Option (List UInt8 × Vars))).Returns _ at h
    split at h
    · exact options_nul (loop_returns_some.mp h) hnul
    · obtain ⟨rfl, _⟩ := Prod.mk.inj (Option.some.inj (Comp.returns_pure_iff.mp h))
      exact ⟨hnul, rfl⟩

/-- The handlers, in whatever state they are, read nothing outside a packet exactly if it is refused or what the
parsers come to lies in it. -/
theorem bootp_dhcp_inside_iff (cfg : Config) (bootpID : List UInt8) (etSrc : Fin 6 → UInt8) (pkt : List UInt8)
    (dest src : Nat) (v : Vars) :
    ((bootpHandler cfg bootpID etSrc pkt dest src v).Safe ∧
      ∀ state, (dhcpHandler cfg bootpID etSrc state pkt dest src v).Safe) ↔
    (bootpCheckPkt bootpID pkt dest src = 0 → RepliesInside cfg pkt v) := by
  by_cases hcheck : bootpCheckPkt bootpID pkt dest src = 0
  swap
  · refine iff_of_true ⟨?_, fun state => ?_⟩ fun h => absurd h hcheck
    · unfold bootpHandler
      rw [if_pos hcheck]
      exact ⟨_, returns_pure _⟩
    · unfold dhcpHandler
      rw [if_pos hcheck]
      exact ⟨_, returns_pure _⟩
  have hin : bpVend ≤ pkt.length := by
    by_contra hshort
    unfold bootpCheckPkt at hcheck
    rw [if_pos (not_le.mp hshort)] at hcheck
    split at hcheck <;> cases hcheck
  rw [bootpHandler_safe_iff hcheck hin]
  constructor
  · rintro ⟨⟨hname, hcookie, hvendor⟩, hdhcp⟩ _
    have hselecting := hdhcp .selecting
    have hrequesting := hdhcp .requesting
    unfold dhcpHandler at hselecting hrequesting
    rw [if_neg (not_not.mpr hcheck), if_pos rfl] at hselecting
    rw [if_neg (not_not.mpr hcheck), if_neg (by decide), if_pos rfl] at hrequesting
    obtain ⟨r, hr, _⟩ := safe_bind.mp hselecting
    obtain ⟨type, htype, _⟩ := safe_bind.mp hrequesting
    exact ⟨hname, hcookie, hvendor, ((dhcpOptions_safe_iff hin).mp ⟨r, hr⟩).2,
      (dhcpMessageType_safe_iff.mp ⟨type, htype⟩).2⟩
  · intro h
    obtain ⟨hname, hcookie, hvendor, hoptions, hmessage⟩ := h hcheck
    refine ⟨⟨hname, hcookie, hvendor⟩, fun state => ?_⟩
    obtain ⟨⟨cur, w⟩, hrun⟩ := (dhcpOptions_safe_iff (v := v) hin).mpr ⟨hcookie, hoptions⟩
    obtain ⟨type, htype⟩ := dhcpMessageType_safe_iff.mpr ⟨hcookie, hmessage⟩
    unfold dhcpHandler
    rw [if_neg (not_not.mpr hcheck)]
    split
    · exact safe_bind.mpr ⟨_, hrun, _, returns_pure _⟩
    split
    · refine safe_bind.mpr ⟨type, htype, ?_⟩
      split
      · obtain ⟨hcur, hlen⟩ := dhcpOptions_name hrun hname
        rcases bootpCopyNetParams_cases cfg etSrc (hlen.symm ▸ hin) w with ⟨hnul, _⟩ | ⟨_, w', name, hdone, _⟩
        · exact absurd hcur hnul
        · refine safe_bind.mpr ⟨_, hrun, Comp.safe_pure.mpr ⟨(.bound, w', name), ?_⟩⟩
          rw [hdone]
          rfl
      · exact ⟨_, returns_pure _⟩
    · exact ⟨_, returns_pure _⟩

def cleared : Vars where
  bytes x := List.replicate x.size 0
  size _ := length_replicate
  ended x _ := mem_replicate.mpr ⟨by cases x <;> decide, rfl⟩
  netBootFileSize := 0

def nameless : List UInt8 := [2, 1, 6, 0, 0, 0, 0, 1] ++ List.replicate 228 97

/-- `strlen` goes on behind the reply. -/
theorem nameless_outside : ¬∀ (cfg : Config) (bootpID : List UInt8) (etSrc : Fin 6 → UInt8) (pkt : List UInt8)
    (dest src : Nat) (v : Vars), bootpCheckPkt bootpID pkt dest src = 0 →
      (bootpHandler cfg bootpID etSrc pkt dest src v).Safe ∧
        ∀ state, (dhcpHandler cfg bootpID etSrc state pkt dest src v).Safe := by
  intro h
  have hcheck : bootpCheckPkt [0, 0, 0, 1] nameless 68 67 = 0 := by decide +kernel
  have hsafe := (h ⟨false, false, false, false, false⟩ _ (fun _ => 0) _ _ _ cleared hcheck).1
  have hname := ((bootpHandler_safe_iff hcheck (by decide +kernel)).mp hsafe).1
  exact absurd hname (by decide +kernel)

end UBoot.Bootp
