import Mathlib.Data.List.TakeWhile
import UBoot.FatRead

namespace UBoot.Fat

open FlashCells Words Loops
open Loops.Comp (ends_pure loop_ends loop_returns returns_bind returns_pure_iff)

section
variable {d : Disk} {fs : Fsdata} {junk : Flash} {st st' : Store} {scan : Scan} {filename : Text}
variable {lsRoot : Bool}

theorem rootScan_coherent (hq : d.Quiet) {isdir : Bool} {k : Nat} (h : Coherent d fs junk st)
    (hs : rootScan d fs filename lsRoot isdir k st = some (st', scan)) : Coherent d fs junk st' := by
  induction k generalizing st with
  | zero =>
    cases hs
    exact h
  | succ k ih =>
    have compare : ∀ {st : Store} {name : Text}, Coherent d fs junk st →
        (if filename ≠ getName st.rootBlock (32 * (16 - (k + 1))) ∧ filename ≠ name then
            rootScan d fs filename lsRoot isdir k st
          else if isdir ∧ ¬isDirectory (entryAttr st.rootBlock (32 * (16 - (k + 1)))) then
            some (st, .stop (-1))
          else some (st, .found (dirEntry st.rootBlock (32 * (16 - (k + 1)))))) = some (st', scan) →
        Coherent d fs junk st' := by
      intro st name h hs
      split at hs
      · exact ih h hs
      · split at hs
        · cases hs
          exact h
        · cases hs
          exact h
    unfold rootScan at hs
    dsimp only at hs
    split at hs
    · split at hs
      · obtain ⟨v, hv, hs⟩ := Option.bind_eq_some_iff.mp hs
        have hst : Coherent d fs junk { v.store with rootBlock := v.block } :=
          (getVfatname_coherent hq h hv).congr rfl rfl
        split at hs
        · exact ih hst hs
        · exact compare hst hs
      · exact ih h hs
    · split at hs
      · cases hs; exact h
      · split at hs
        · exact ih h hs
        · exact compare h hs

theorem dirScan_coherent (hq : d.Quiet) {dols : Bool} {c n k : Nat} (h : Coherent d fs junk st)
    (hs : dirScan d fs c filename dols n k st = some (st', scan)) : Coherent d fs junk st' := by
  induction k generalizing st with
  | zero =>
    cases hs
    exact h
  | succ k ih =>
    have compare : ∀ {st : Store} {name : Text}, Coherent d fs junk st →
        (if filename ≠ getName st.dirBlock (32 * (n - (k + 1))) ∧ filename ≠ name then
            dirScan d fs c filename dols n k st
          else some (st, .found (dirEntry st.dirBlock (32 * (n - (k + 1)))))) = some (st', scan) →
        Coherent d fs junk st' := by
      intro st name h hs
      split at hs
      · exact ih h hs
      · cases hs
        exact h
    unfold dirScan at hs
    dsimp only at hs
    split at hs
    · exact ih h hs
    · split at hs
      · split at hs
        · obtain ⟨v, hv, hs⟩ := Option.bind_eq_some_iff.mp hs
          have hst : Coherent d fs junk { v.store with dirBlock := v.block } :=
            (getVfatname_coherent hq h hv).congr rfl rfl
          split at hs
          · exact ih hst hs
          · split at hs
            · cases hs; exact hst
            · exact compare hst hs
        · exact ih h hs
      · split at hs
        · cases hs; exact h
        · split at hs
          · exact ih h hs
          · exact compare h hs

/-- Where a round of the root search reads, counted from the start of the device. -/
def rootSector (d : Disk) (s : Store × Nat) : Nat := (s.2 + d.partOffset) % 4294967296

theorem rootRound_again {isdir : Bool} {s s' : Store × Nat} (hc : fs.clustSize ≠ 0)
    (h : rootRound d fs filename lsRoot isdir s = some (.inl s')) :
    d.size - rootSector d s' < d.size - rootSector d s := by
  unfold rootRound at h
  dsimp only at h
  split at h
  · cases h
  · split at h
    · cases h
    next hread =>
      have hok : d.ok s.1.reads (rootSector d s) fs.clustSize = true := by
        by_contra hno
        exact hread (by unfold diskRead; exact congrArg Prod.fst (if_neg hno))
      have hin := (d.beyond hok).resolve_left hc
      obtain ⟨⟨st, scan⟩, -, heq⟩ := Option.map_eq_some_iff.mp h
      have hnext : s'.2 = (s.2 + 1) % 4294967296 := by
        cases scan with
        | exhausted => cases heq; rfl
        | found e => cases heq
        | stop ret => cases heq
      have hsize := d.size_lt
      unfold rootSector at hin ⊢
      rw [hnext]
      omega

theorem rootSearch_ends (hc : fs.clustSize ≠ 0) (lsRoot isdir : Bool) (st : Store) :
    (rootSearch d fs filename lsRoot isdir st).Ends := by
  refine loop_ends (fun _ => True) (fun s => d.size - rootSector d s)
    (fun s _ => Comp.ends_round _) ?_ trivial
  intro s s' _ h
  exact ⟨trivial, rootRound_again hc (Comp.returns_round_again.mp h)⟩

theorem rootSearch_coherent (hq : d.Quiet) {isdir : Bool} (h : Coherent d fs junk st)
    (hr : (rootSearch d fs filename lsRoot isdir st).Returns (some (st', scan))) :
    Coherent d fs junk st' := by
  have hround : ∀ (s : Store × Nat) x, Coherent d fs junk s.1 →
      rootRound d fs filename lsRoot isdir s = some x →
      Sum.elim (fun t => Coherent d fs junk t.1) (fun t => Coherent d fs junk t.1) x := by
    intro s x hs hx
    unfold rootRound at hx
    dsimp only at hx
    split at hx
    · cases hx
    · split at hx
      · cases hx
        exact hs.congr rfl rfl
      · obtain ⟨⟨t, scan⟩, hscan, heq⟩ := Option.map_eq_some_iff.mp hx
        have hblock : Coherent d fs junk { s.1 with
            reads := s.1.reads + 1
            rootBlock := (diskRead d s.1.reads s.2 fs.clustSize s.1.rootBlock 0).2 } :=
          hs.congr rfl rfl
        have ht : Coherent d fs junk t := rootScan_coherent hq hblock hscan
        cases scan with
        | exhausted => cases heq; exact ht
        | found e => cases heq; exact ht
        | stop ret => cases heq; exact ht
  have hall := loop_returns (P := fun s : Store × Nat => Coherent d fs junk s.1)
    (Q := fun r : Option (Store × Scan) => ∀ t, r = some t → Coherent d fs junk t.1)
    (fun s s' hs hx => hround s _ hs (Comp.returns_round_again.mp hx))
    (fun s a hs hx t ht => by
      subst ht
      exact hround s _ hs (Comp.returns_round_done.mp hx)) h hr
  exact hall _ rfl

theorem dirRound_spec (hq : d.Quiet) {dols : Bool} {s : Store × Nat} (h : Coherent d fs junk s.1)
    {x : Store × Nat ⊕ Store × Option DirEntry} (hx : dirRound d fs filename dols s = some x) :
    Sum.elim
      (fun t => Coherent d fs junk t.1 ∧ t.2 = tableEntry d fs junk s.2 ∧
        checkClust (tableEntry d fs junk s.2) fs.fatsize ≠ true)
      (fun t => Coherent d fs junk t.1) x := by
  unfold dirRound at hx
  dsimp only at hx
  split at hx
  · cases hx
  · split at hx
    · cases hx
      exact h.congr rfl rfl
    · obtain ⟨⟨t, scan⟩, hscan, heq⟩ := Option.map_eq_some_iff.mp hx
      have hblock : Coherent d fs junk { s.1 with
          reads := (getCluster d fs s.1.reads s.2 s.1.dirBlock 0 (fs.clustSize * 512)).2.1
          dirBlock := (getCluster d fs s.1.reads s.2 s.1.dirBlock 0 (fs.clustSize * 512)).2.2 } :=
        h.congr rfl rfl
      have ht : Coherent d fs junk t := dirScan_coherent hq hblock hscan
      cases scan with
      | found e =>
        cases heq
        exact ht
      | stop ret =>
        cases heq
        exact ht
      | exhausted =>
        have hnext := (getFatent_spec hq ht s.2).2
        dsimp only at heq
        split at heq
        · cases heq
          exact hnext
        next hgo =>
          cases heq
          have hchain := getFatent_chain hq ht hgo
          refine ⟨hnext, hchain, ?_⟩
          rw [← hchain]
          exact hgo

theorem getDentfromdir_ends (hq : d.Quiet) {c : Nat} (hc : ChainEnds d fs junk c)
    (h : Coherent d fs junk st) (dols : Bool) : (getDentfromdir d fs st c filename dols).Ends := by
  obtain ⟨n, hn⟩ := hc
  induction n using Nat.strong_induction_on generalizing c st with
  | _ n ih =>
    obtain ⟨x, hx⟩ := Comp.ends_round (dirRound d fs filename dols (st, c))
    cases x with
    | inr a => exact ⟨a, Comp.loop_done hx⟩
    | inl s' =>
      obtain ⟨hs', hnext, hgo⟩ := dirRound_spec hq h (Comp.returns_round_again.mp hx)
      obtain ⟨m, hm, hend⟩ := hn.step hgo
      obtain ⟨a, ha⟩ := ih m hm hs' hend
      rw [← hnext] at ha
      exact ⟨a, Comp.loop_again hx ha⟩

theorem getDentfromdir_coherent (hq : d.Quiet) {c : Nat} {dols : Bool} {e : Option DirEntry}
    (h : Coherent d fs junk st)
    (hr : (getDentfromdir d fs st c filename dols).Returns (some (st', e))) :
    Coherent d fs junk st' := by
  have hall := loop_returns (P := fun s : Store × Nat => Coherent d fs junk s.1)
    (Q := fun r : Option (Store × Option DirEntry) => ∀ t, r = some t → Coherent d fs junk t.1)
    (fun s s' hs hx => (dirRound_spec hq hs (Comp.returns_round_again.mp hx)).1)
    (fun s a hs hx t ht => by
      subst ht
      exact dirRound_spec hq hs (Comp.returns_round_done.mp hx)) h hr
  exact hall _ rfl

end

section
variable {d : Disk} {fs : Fsdata} {junk : Flash} {dols : Bool} {w w' : Walk}

theorem splitDelim_shorter {s name rest : Text} (h : splitDelim s = some (name, rest)) :
    rest.length < s.length := by
  unfold splitDelim at h
  split at h
  next hany =>
    cases h
    obtain ⟨c, hc, hdelim⟩ := List.any_eq_true.mp hany
    have hle := (List.dropWhile_sublist (fun c => !isDelim c) (l := s)).length_le
    cases hd : s.dropWhile fun c => !isDelim c with
    | nil =>
      have hall := List.dropWhile_eq_nil_iff.mp hd c hc
      simp [hdelim] at hall
    | cons c' cs =>
      have hhead := List.head?_dropWhile_not (fun c => !isDelim c) s
      rw [hd] at hhead hle
      have hc' : isDelim c' = true := by simpa using hhead
      rw [List.dropWhile_cons_of_pos hc']
      have hrest := (List.dropWhile_sublist isDelim (l := cs)).length_le
      rw [List.length_cons] at hle
      omega
  · cases h

def walkLeft (w : Walk) : Nat := 2 * w.subname.length + if w.firsttime then 1 else 0

theorem pathRound_again (hr : (pathRound d fs dols w).Returns (.inl w')) : walkLeft w' < walkLeft w := by
  obtain ⟨r, -, hr⟩ := returns_bind.mp hr
  match r with
  | none => exact absurd (returns_pure_iff.mp hr) (by simp)
  | some (st, none) => exact absurd (returns_pure_iff.mp hr) (by simp)
  | some (st, some e) =>
    dsimp only at hr
    split at hr
    · exact absurd (returns_pure_iff.mp hr) (by simp)
    · split at hr
      next hdir =>
        cases returns_pure_iff.mp hr
        unfold walkLeft pathStage at *
        cases hsplit : splitDelim w.subname with
        | none =>
          rw [hsplit] at hdir
          simp only [Bool.and_eq_true] at hdir
          simp [hdir.2]
        | some p =>
          have hlt := splitDelim_shorter hsplit
          simp only [Option.getD_some]
          split
          · split
            · omega
            · omega
          · split
            · omega
            · omega
      · exact absurd (returns_pure_iff.mp hr) (by simp)

theorem pathRound_isdir (hr : (pathRound d fs dols w).Returns (.inl w')) :
    (pathStage dols w).isdir = true := by
  obtain ⟨r, -, hr⟩ := returns_bind.mp hr
  match r with
  | none => exact absurd (returns_pure_iff.mp hr) (by simp)
  | some (st, none) => exact absurd (returns_pure_iff.mp hr) (by simp)
  | some (st, some e) =>
    dsimp only at hr
    split at hr
    · exact absurd (returns_pure_iff.mp hr) (by simp)
    · split at hr
      next hdir => exact hdir
      · exact absurd (returns_pure_iff.mp hr) (by simp)

/-- The directories at which the walk along a path searches. -/
inductive Visited (d : Disk) (fs : Fsdata) (dols : Bool) (w : Walk) : Walk → Prop
  | first : Visited d fs dols w w
  | next {v v'} : Visited d fs dols w v → (pathRound d fs dols v).Returns (.inl v') →
      Visited d fs dols w v'

theorem pathRound_coherent (hq : d.Quiet) (h : Coherent d fs junk w.store)
    {x : Walk ⊕ Option (Store × (Int ⊕ DirEntry))} (hr : (pathRound d fs dols w).Returns x) :
    Sum.elim (fun w' => Coherent d fs junk w'.store)
      (fun r => ∀ t, r = some t → Coherent d fs junk t.1) x := by
  obtain ⟨r, hg, hr⟩ := returns_bind.mp hr
  match r with
  | none =>
    cases returns_pure_iff.mp hr
    exact fun t ht => (by cases ht)
  | some (st, none) =>
    cases returns_pure_iff.mp hr
    intro t ht
    cases ht
    exact getDentfromdir_coherent hq h hg
  | some (st, some e) =>
    have hst := getDentfromdir_coherent hq h hg
    dsimp only at hr
    split at hr
    · cases returns_pure_iff.mp hr
      intro t ht
      cases ht
      exact hst
    · split at hr
      · cases returns_pure_iff.mp hr
        exact hst
      · cases returns_pure_iff.mp hr
        intro t ht
        cases ht
        exact hst

theorem followPath_ends (hq : d.Quiet) (h : Coherent d fs junk w.store)
    (hchains : ∀ v, Visited d fs dols w v → ChainEnds d fs junk (startCluster fs v.entry)) :
    (followPath d fs dols w).Ends := by
  refine loop_ends (fun v => Visited d fs dols w v ∧ Coherent d fs junk v.store) walkLeft
    ?_ ?_ ⟨.first, h⟩
  · rintro v ⟨hv, hst⟩
    refine Comp.Ends.bind (getDentfromdir_ends hq (hchains v hv) hst _) fun r _ => ?_
    match r with
    | none => exact ends_pure _
    | some (st, none) => exact ends_pure _
    | some (st, some e) =>
      dsimp only
      split
      · exact ends_pure _
      · split
        · exact ends_pure _
        · exact ends_pure _
  · rintro v v' ⟨hv, hst⟩ hr
    exact ⟨⟨.next hv hr, pathRound_coherent hq hst hr⟩, pathRound_again hr⟩

theorem followPath_coherent (hq : d.Quiet) (h : Coherent d fs junk w.store) {t : Store × (Int ⊕ DirEntry)}
    (hr : (followPath d fs dols w).Returns (some t)) : Coherent d fs junk t.1 :=
  loop_returns (P := fun v : Walk => Coherent d fs junk v.store)
    (Q := fun r : Option (Store × (Int ⊕ DirEntry)) => ∀ t, r = some t → Coherent d fs junk t.1)
    (fun _ _ hst hx => pathRound_coherent hq hst hx) (fun _ _ hst hx => pathRound_coherent hq hst hx) h hr
    t rfl

end

section
variable {d : Disk} {fs : Fsdata} {junk : Flash} {n filesize : Nat}
variable {g : Reading}

/-- The clusters of a search for consecutive ones lie in the chain, and `actsize` stays below
`2 ^ 32` where it cannot get past the size of the file. -/
structure Searching (d : Disk) (fs : Fsdata) (junk : Flash) (filesize : Nat) (chain : Nat → Prop)
    (s : Store × Nat × Nat) : Prop where
  coherent : Coherent d fs junk s.1
  chain : chain s.2.1
  actsize : 0 < bytesPerClust fs → filesize + bytesPerClust fs ≤ 4294967296 → 0 < s.2.2

def Followed (d : Disk) (fs : Fsdata) (junk : Flash) (chain : Nat → Prop) : Prop :=
  ∀ c, chain c → checkClust (tableEntry d fs junk c) fs.fatsize ≠ true → chain (tableEntry d fs junk c)

variable {chain : Nat → Prop} {s s' : Store × Nat × Nat}

theorem consecutive_again (hq : d.Quiet) (hf : Followed d fs junk chain)
    (h : Searching d fs junk filesize chain s)
    (hs : consecutiveRound d fs filesize s = .inl s') :
    Searching d fs junk filesize chain s' ∧ 4294967296 - s'.2.1 < 4294967296 - s.2.1 := by
  unfold consecutiveRound at hs
  dsimp only at hs
  split at hs
  next hlt =>
    split at hs
    · cases hs
    next hnext =>
      split at hs
      · cases hs
      next hgo =>
        cases hs
        have hchain := getFatent_chain hq h.coherent hgo
        have hbound : 1 < (getFatent d fs s.1 s.2.1).1 ∧ (getFatent d fs s.1 s.2.1).1 < 0xffffff0 := by
          have hgo' := hgo
          unfold checkClust at hgo'
          rw [Bool.or_eq_true, decide_eq_true_iff, decide_eq_true_iff] at hgo'
          split at hgo' <;> omega
        refine ⟨⟨(getFatent_spec hq h.coherent s.2.1).2, ?_, ?_⟩, by dsimp only; omega⟩
        · dsimp only
          rw [hchain] at hgo ⊢
          exact hf _ h.chain hgo
        · intro hpos hsize
          dsimp only
          rw [Nat.mod_eq_of_lt (by omega)]
          omega
  · cases hs

theorem consecutive_done (hq : d.Quiet) (h : Searching d fs junk filesize chain s) {how : Reach}
    (hs : consecutiveRound d fs filesize s = .inr (s', how)) :
    Searching d fs junk filesize chain s' ∧ (how = .jump → s'.2.2 < filesize) := by
  have hnext := (getFatent_spec hq h.coherent s.2.1).2
  unfold consecutiveRound at hs
  dsimp only at hs
  split at hs
  next hlt =>
    split at hs
    · cases hs
      exact ⟨⟨hnext, h.chain, h.actsize⟩, fun _ => hlt⟩
    · split at hs
      · cases hs
        exact ⟨⟨hnext, h.chain, h.actsize⟩, nofun⟩
      · cases hs
  · cases hs
    exact ⟨h, nofun⟩

theorem consecutive_ends (hq : d.Quiet) (hf : Followed d fs junk chain)
    (h : Searching d fs junk filesize chain s) :
    (Comp.loop (fun s => Comp.pure (consecutiveRound d fs filesize s)) s).Ends :=
  loop_ends (Searching d fs junk filesize chain) (fun s => 4294967296 - s.2.1)
    (fun _ _ => ends_pure _)
    (fun _ _ hs hx => consecutive_again hq hf hs (returns_pure_iff.mp hx).symm) h

theorem consecutive_returns (hq : d.Quiet) (hf : Followed d fs junk chain)
    (h : Searching d fs junk filesize chain s) {r : (Store × Nat × Nat) × Reach}
    (hr : (Comp.loop (fun s => Comp.pure (consecutiveRound d fs filesize s)) s).Returns r) :
    Searching d fs junk filesize chain r.1 ∧ (r.2 = .jump → r.1.2.2 < filesize) :=
  loop_returns (Q := fun r => Searching d fs junk filesize chain r.1 ∧
      (r.2 = .jump → r.1.2.2 < filesize)) (Searching d fs junk filesize chain)
    (fun _ _ hs hx => (consecutive_again hq hf hs (returns_pure_iff.mp hx).symm).1)
    (fun _ _ hs hx => consecutive_done hq hs (returns_pure_iff.mp hx).symm) h hr

theorem Searching.start (h : Coherent d fs junk g.store) (hc : chain g.curclust) :
    Searching d fs junk g.filesize chain (g.store, g.curclust, bytesPerClust fs) :=
  ⟨h, hc, fun hpos _ => hpos⟩

theorem contentsRound_ends (hq : d.Quiet) (hf : Followed d fs junk chain)
    (h : Coherent d fs junk g.store) (hc : chain g.curclust) : (contentsRound d fs g).Ends := by
  refine Comp.Ends.bind (consecutive_ends hq hf (Searching.start h hc)) fun r _ => ?_
  obtain ⟨s, how⟩ := r
  cases how with
  | invalid => exact ends_pure _
  | all =>
    dsimp only
    split
    · exact ends_pure _
    · split
      · exact ends_pure _
      · exact ends_pure _
  | jump =>
    dsimp only
    split
    · exact ends_pure _
    · split
      · exact ends_pure _
      · exact ends_pure _

theorem contentsRound_again (hq : d.Quiet) (hf : Followed d fs junk chain) {g' : Reading}
    (h : Coherent d fs junk g.store) (hc : chain g.curclust) (hr : (contentsRound d fs g).Returns (.inl g')) :
    Coherent d fs junk g'.store ∧ (∃ c, chain c ∧ checkClust (tableEntry d fs junk c) fs.fatsize ≠ true ∧
        g'.curclust = tableEntry d fs junk c) ∧
      ∃ actsize, actsize < g.filesize ∧ g'.filesize = minus g.filesize actsize ∧
        (0 < bytesPerClust fs → g.filesize + bytesPerClust fs ≤ 4294967296 → 0 < actsize) := by
  obtain ⟨⟨⟨st, endclust, actsize⟩, how⟩, hloop, hr⟩ := returns_bind.mp hr
  obtain ⟨hsearch, hjump⟩ := consecutive_returns hq hf (Searching.start h hc) hloop
  cases how with
  | invalid => exact absurd (returns_pure_iff.mp hr) (by simp)
  | all =>
    dsimp only at hr
    split at hr
    · exact absurd (returns_pure_iff.mp hr) (by simp)
    · split at hr
      · exact absurd (returns_pure_iff.mp hr) (by simp)
      · exact absurd (returns_pure_iff.mp hr) (by simp)
  | jump =>
    dsimp only at hr
    split at hr
    · exact absurd (returns_pure_iff.mp hr) (by simp)
    · split at hr
      · exact absurd (returns_pure_iff.mp hr) (by simp)
      next hgo =>
        have hst : Coherent d fs junk
            (takeCluster d fs { g with store := st } g.curclust actsize).2.store :=
          hsearch.coherent.congr rfl rfl
        have hchain := getFatent_chain hq hst hgo
        have hcoh := (getFatent_spec hq hst endclust).2
        cases returns_pure_iff.mp hr
        refine ⟨hcoh, ⟨endclust, hsearch.chain, ?_, hchain⟩, actsize, hjump rfl, rfl, hsearch.actsize⟩
        rw [← hchain]
        exact hgo

theorem contents_ends_size (hq : d.Quiet) (hpos : 0 < bytesPerClust fs)
    (h : Coherent d fs junk g.store) (hsize : g.filesize + bytesPerClust fs ≤ 4294967296) :
    (Comp.loop (contentsRound d fs) g).Ends := by
  have hf : Followed d fs junk fun _ => True := fun _ _ _ => trivial
  refine loop_ends
    (fun g => Coherent d fs junk g.store ∧ g.filesize + bytesPerClust fs ≤ 4294967296)
    (fun g => g.filesize) (fun g hg => contentsRound_ends hq hf hg.1 trivial) ?_ ⟨h, hsize⟩
  rintro g g' ⟨hg, hgsize⟩ hr
  obtain ⟨hcoh, -, actsize, hlt, heq, hact⟩ := contentsRound_again hq hf hg trivial hr
  unfold minus at heq
  exact ⟨⟨hcoh, by omega⟩, by omega⟩

theorem contents_ends_chain (hq : d.Quiet) (h : Coherent d fs junk g.store)
    (hc : ChainEnds d fs junk g.curclust) : (Comp.loop (contentsRound d fs) g).Ends := by
  obtain ⟨n, hn⟩ := hc
  induction n using Nat.strong_induction_on generalizing g with
  | _ n ih =>
    have hf : Followed d fs junk (EndsIn d fs junk n) := by
      intro c hc hgo
      obtain ⟨m, hm, hend⟩ := hc.step hgo
      exact hend.mono (le_of_lt hm)
    obtain ⟨x, hx⟩ := contentsRound_ends hq hf h hn
    cases x with
    | inr a => exact ⟨a, Comp.loop_done hx⟩
    | inl g' =>
      obtain ⟨hcoh, ⟨c, hc, hgo, heq⟩, -⟩ := contentsRound_again hq hf h hn hx
      obtain ⟨m, hm, hend⟩ := hc.step hgo
      obtain ⟨a, ha⟩ := ih m hm hcoh (heq ▸ hend)
      exact ⟨a, Comp.loop_again hx ha⟩

end

end UBoot.Fat
