import UBoot.SRecord

namespace UBoot.SRecord

open List

open FlashCells (patch patch_append read read_length read_append)

section
variable {n room address : Nat} {vs : List Nat} {line text input : List UInt8}

theorem hex1Bin_hexDigit (h : n < 16) : hex1Bin (hexDigit n) = some n := by
  have hall : ∀ n < 16, hex1Bin (hexDigit n) = some n := by decide
  exact hall n h

theorem hex2Bin_hex2 (h : n < 256) : hex2Bin (hex2 n ++ input) = some n := by
  have hhigh := hex1Bin_hexDigit (Nat.mod_lt (n / 16) (by decide : 16 > 0))
  have hlow := hex1Bin_hexDigit (Nat.mod_lt n (by decide : 16 > 0))
  simp only [hex2, cons_append, hex2Bin, hhigh, hlow]
  exact congrArg some (by omega)

theorem hexBytes_flatMap (h : ∀ v ∈ vs, v < 256) : hexBytes vs.length (vs.flatMap hex2 ++ input) = some (vs, input) := by
  induction vs with
  | nil => rfl
  | cons v vs ih =>
    obtain ⟨hv, hvs⟩ := forall_mem_cons.mp h
    rw [length_cons, flatMap_cons, append_assoc, hexBytes, hex2Bin_hex2 hv]
    show (hexBytes vs.length (vs.flatMap hex2 ++ input)).map _ = _
    rw [ih hvs]
    rfl

def dataLine (address : Nat) (vs : List Nat) : List UInt8 :=
  ascii ['S', '3'] ++ hex2 (4 + vs.length + 1) ++ (addressBytes address).flatMap hex2 ++ vs.flatMap hex2 ++
    hex2 (255 - (4 + vs.length + 1 + (addressBytes address).sum + vs.sum) % 256)

theorem addressBytes_lt {v : Nat} (h : v ∈ addressBytes address) : v < 256 := by
  simp only [addressBytes, mem_cons, not_mem_nil, or_false] at h
  rcases h with rfl | rfl | rfl | rfl
  · exact Nat.mod_lt _ (by decide)
  · exact Nat.mod_lt _ (by decide)
  · exact Nat.mod_lt _ (by decide)
  · exact Nat.mod_lt _ (by decide)

theorem addressBytes_fold (h : address < 2 ^ 32) : (addressBytes address).foldl (fun addr v => addr * 256 + v) 0 = address := by
  simp only [addressBytes, foldl_cons, foldl_nil]
  omega

theorem srecDecode_eq {v : UInt8} {length addrBytes checksum : Nat} {type : RecType} {count : Int} {addr data : List Nat}
    {behind behind' : List UInt8} (hlength : hex2Bin input = some length)
    (htype : recType v length = some (type, addrBytes, count))
    (haddr : hexBytes addrBytes (input.drop 2) = some (addr, behind))
    (hdata : hexBytes count.toNat behind = some (data, behind')) (hchecksum : hex2Bin behind' = some checksum)
    (hsum : checksum = 255 - (length + addr.sum + data.sum) % 256) :
    srecDecode (83 :: v :: input) =
      .ok ⟨type, count, addr.foldl (fun addr v => addr * 256 + v) 0, data.map UInt8.ofNat⟩ := by
  have hdrop : ((83 :: v :: input).dropWhile (· ≠ 83)).drop 1 = v :: input := rfl
  unfold srecDecode
  rw [hdrop]
  dsimp only
  rw [hlength]
  dsimp only
  rw [htype]
  dsimp only
  rw [haddr]
  dsimp only
  rw [hdata]
  dsimp only
  rw [hchecksum]
  exact if_neg (not_not.mpr hsum)

theorem srecDecode_dataLine (haddr : address < 2 ^ 32) (hlen : vs.length ≤ bytesPerRecord) (h : ∀ v ∈ vs, v < 256) :
    srecDecode (dataLine address vs) = .ok ⟨.data4, vs.length, address, vs.map UInt8.ofNat⟩ := by
  have hshort : vs.length ≤ 16 := hlen
  have hline : dataLine address vs = 83 :: 51 :: (hex2 (4 + vs.length + 1) ++ ((addressBytes address).flatMap hex2 ++
      (vs.flatMap hex2 ++ (hex2 (255 - (4 + vs.length + 1 + (addressBytes address).sum + vs.sum) % 256) ++ [])))) := by
    simp [dataLine, ascii]
  have htype : recType 51 (4 + vs.length + 1) = some (.data4, 4, (vs.length : Int)) := by
    show some (RecType.data4, 4, ((4 + vs.length + 1 : Nat) : Int) - 5) = _
    rw [show ((4 + vs.length + 1 : Nat) : Int) - 5 = vs.length by omega]
  have hread : hexBytes 4 ((addressBytes address).flatMap hex2 ++ (vs.flatMap hex2 ++
      (hex2 (255 - (4 + vs.length + 1 + (addressBytes address).sum + vs.sum) % 256) ++ []))) =
      some (addressBytes address, _) := @hexBytes_flatMap (addressBytes address) _ fun v => addressBytes_lt
  rw [hline]
  refine (srecDecode_eq (hex2Bin_hex2 (by omega)) htype hread (hexBytes_flatMap h) (hex2Bin_hex2 (by omega)) rfl).trans ?_
  rw [addressBytes_fold haddr]

theorem readRecord_line (h : ∀ c ∈ line, c ≠ 13 ∧ c ≠ 10 ∧ c ≠ 0 ∧ c ≠ 3) (hroom : line.length < room) :
    readRecord room (line ++ 10 :: text) = some (some line, text) := by
  induction line generalizing room with
  | nil =>
    cases room with
    | zero => exact absurd hroom (Nat.not_lt_zero _)
    | succ room => rfl
  | cons c line ih =>
    obtain ⟨⟨hcr, hlf, hnul, hctrl⟩, hline⟩ := forall_mem_cons.mp h
    cases room with
    | zero => exact absurd hroom (Nat.not_lt_zero _)
    | succ room =>
      have hrest := ih hline (Nat.lt_of_succ_lt_succ hroom)
      rw [cons_append, readRecord, if_neg (by simp [hcr, hlf]), if_neg (by simp [hnul, hctrl]), hrest]
      rfl

end

section
variable {saved mem : Memory} {address count reclen checksum k rest : Nat} {data : List UInt8}

def octets (mem : Memory) (a n : Nat) : List Nat := (read mem a n).map UInt8.toNat

theorem octets_length : (octets mem address count).length = count := by
  unfold octets
  rw [length_map, read_length]

theorem octets_lt {v : Nat} (h : v ∈ octets mem address count) : v < 256 := by
  obtain ⟨b, _, rfl⟩ := mem_map.mp h
  exact b.toNat_lt

theorem octets_zero : octets mem address 0 = [] := rfl

theorem octets_succ : octets mem address (count + 1) = (mem address).toNat :: octets mem (address + 1) count := by
  unfold octets
  rw [add_comm, read_append]
  rfl

theorem octets_bytes : (octets mem address count).map UInt8.ofNat = read mem address count := by
  unfold octets
  rw [map_map]
  exact (map_congr_left fun b _ => UInt8.ofNat_toNat).trans (map_id _)

theorem saveLoop_complete (hfull : reclen + (k + 1) = bytesPerRecord ∨ rest = 0 ∧ reclen + (k + 1) ≤ bytesPerRecord)
    (htop : address + reclen + (k + 1) ≤ 2 ^ 32) :
    saveLoop saved (k + 1 + rest) address reclen data checksum =
      dataRecord (4 + (reclen + (k + 1)) + 1) address (data ++ (octets saved (address + reclen) (k + 1)).flatMap hex2)
        (255 - (4 + (reclen + (k + 1)) + 1 + (addressBytes address).sum +
          (checksum + (octets saved (address + reclen) (k + 1)).sum)) % 256) ++
      saveLoop saved rest ((address + (reclen + (k + 1))) % 2 ^ 32) 0 [] 0 := by
  unfold bytesPerRecord at hfull
  have hread : (saved ((address + reclen) % 2 ^ 32)).toNat = (saved (address + reclen)).toNat := by
    rw [Nat.mod_eq_of_lt (by omega)]
  induction k generalizing reclen data checksum with
  | zero =>
    have hdump : reclen + 1 = bytesPerRecord ∨ rest = 0 := hfull.imp id And.left
    rw [zero_add, add_comm 1 rest, saveLoop]
    dsimp only
    have hsum : checksum + (saved (address + reclen)).toNat + ((4 + (reclen + 1) + 1) % 256 +
        (4 + (reclen + 1) + 1) / 256 % 256) + (addressBytes address).sum = 4 + (reclen + 1) + 1 +
        (addressBytes address).sum + (checksum + (saved (address + reclen)).toNat) := by omega
    rw [if_pos hdump, hread, hsum, octets_succ, octets_zero]
    simp only [flatMap_cons, flatMap_nil, append_nil, sum_cons, sum_nil, add_zero]
  | succ k ih =>
    have hnot : ¬(reclen + 1 = bytesPerRecord ∨ k + 1 + rest = 0) := by
      unfold bytesPerRecord
      omega
    rw [show k + 1 + 1 + rest = (k + 1 + rest) + 1 by omega, saveLoop]
    have hfirst : octets saved (address + reclen) (k + 1 + 1) = _ := octets_succ
    rw [if_neg hnot, hread, ih (by omega) (by omega) (by rw [Nat.mod_eq_of_lt (by omega)]), hfirst, flatMap_cons,
 sum_cons, append_assoc, Nat.add_right_comm reclen 1 (k + 1), add_assoc checksum]
    rfl

variable (saved) in
theorem saveLoop_record (hcount : 0 < count) (htop : address + count ≤ 2 ^ 32) :
    ∃ n, 0 < n ∧ n ≤ count ∧ n ≤ bytesPerRecord ∧ saveLoop saved count address 0 [] 0 =
      dataLine address (octets saved address n) ++ 10 :: saveLoop saved (count - n) (address + n) 0 [] 0 := by
  obtain ⟨k, hk, hle, hfull⟩ : ∃ k, k + 1 ≤ count ∧ k + 1 ≤ bytesPerRecord ∧
      (0 + (k + 1) = bytesPerRecord ∨ count - (k + 1) = 0 ∧ 0 + (k + 1) ≤ bytesPerRecord) := by
    unfold bytesPerRecord
    rcases lt_or_ge count 16 with hlt | hge
    · exact ⟨count - 1, by omega, by omega, .inr ⟨by omega, by omega⟩⟩
    · exact ⟨15, by omega, by omega, .inl (by omega)⟩
  refine ⟨k + 1, Nat.succ_pos k, hk, hle, ?_⟩
  have hcomplete := @saveLoop_complete saved address 0 0 k (count - (k + 1)) [] hfull (by omega)
  rw [show k + 1 + (count - (k + 1)) = count by omega, add_zero, zero_add, zero_add, nil_append] at hcomplete
  have hbehind : saveLoop saved (count - (k + 1)) ((address + (k + 1)) % 2 ^ 32) 0 [] 0 =
      saveLoop saved (count - (k + 1)) (address + (k + 1)) 0 [] 0 := by
    rcases Nat.eq_zero_or_pos (count - (k + 1)) with hzero | hpos
    · rw [hzero]
      rfl
    · rw [Nat.mod_eq_of_lt (by omega)]
  rw [hcomplete, hbehind]
  unfold dataRecord dataLine
  rw [octets_length, append_assoc]
  rfl

theorem memcpy_read (htop : address + count ≤ 2 ^ 32) :
    memcpy mem address (read saved address count) = patch mem address count saved := by
  funext x
  unfold memcpy patch
  rw [read_length]
  have hinside : (x < 2 ^ 32 ∧ (x + (2 ^ 32 - address)) % 2 ^ 32 < count) ↔ address ≤ x ∧ x < address + count := by omega
  by_cases hx : address ≤ x ∧ x < address + count
  · rw [if_pos (hinside.mpr hx), if_pos hx]
    have hoffset : (x + (2 ^ 32 - address)) % 2 ^ 32 = x - address := by omega
    rw [hoffset]
    unfold FlashCells.read
    rw [getD_eq_getElem?_getD, List.getElem?_map, List.getElem?_range (by omega)]
    show saved (address + (x - address)) = saved x
    rw [show address + (x - address) = x by omega]
  · rw [if_neg (mt hinside.mp hx), if_neg hx]

end

section
variable {flashWrite : Nat → List UInt8 → Memory → Option (Int × Memory)} {saved mem : Memory}
  {address count n fuel startAddr endAddr : Nat} {text : List UInt8}

theorem hexDigit_printable (h : n < 16) : hexDigit n ≠ 13 ∧ hexDigit n ≠ 10 ∧ hexDigit n ≠ 0 ∧ hexDigit n ≠ 3 := by
  have hall : ∀ n < 16, hexDigit n ≠ 13 ∧ hexDigit n ≠ 10 ∧ hexDigit n ≠ 0 ∧ hexDigit n ≠ 3 := by decide
  exact hall n h

theorem hex2_printable {c : UInt8} (h : c ∈ hex2 n) : c ≠ 13 ∧ c ≠ 10 ∧ c ≠ 0 ∧ c ≠ 3 := by
  simp only [hex2, mem_cons, not_mem_nil, or_false] at h
  rcases h with rfl | rfl
  · exact hexDigit_printable (Nat.mod_lt _ (by decide))
  · exact hexDigit_printable (Nat.mod_lt _ (by decide))

theorem hexes_printable {vs : List Nat} {c : UInt8} (h : c ∈ vs.flatMap hex2) : c ≠ 13 ∧ c ≠ 10 ∧ c ≠ 0 ∧ c ≠ 3 := by
  obtain ⟨v, _, hc⟩ := mem_flatMap.mp h
  exact hex2_printable hc

theorem hexes_length {vs : List Nat} : (vs.flatMap hex2).length = 2 * vs.length := by
  induction vs with
  | nil => rfl
  | cons v vs ih =>
    rw [flatMap_cons, length_append, ih, length_cons]
    exact add_comm 2 (2 * vs.length)

theorem readRecord_dataLine {vs : List Nat} (hlen : vs.length ≤ bytesPerRecord) :
    readRecord srecMaxreclen (dataLine address vs ++ 10 :: text) = some (some (dataLine address vs), text) := by
  unfold bytesPerRecord at hlen
  refine readRecord_line (fun c hc => ?_) ?_
  · simp only [dataLine, mem_append] at hc
    rcases hc with (((hc | hc) | hc) | hc) | hc
    · have htype : ascii ['S', '3'] = [83, 51] := rfl
      rw [htype, mem_pair] at hc
      rcases hc with rfl | rfl <;> decide
    · exact hex2_printable hc
    · exact hexes_printable hc
    · exact hexes_printable hc
    · exact hex2_printable hc
  · unfold dataLine srecMaxreclen
    simp only [length_append, hexes_length]
    show 2 + 2 + 2 * 4 + 2 * vs.length + 2 < 512 + 4
    omega

theorem loadLoop_record (hpos : 0 < n) (hlen : n ≤ bytesPerRecord) (htop : address + n ≤ 2 ^ 32)
    (hflash : ∀ data mem, flashWrite address data mem = none) :
    loadLoop flashWrite 0 (fuel + 1) (dataLine address (octets saved address n) ++ 10 :: text) mem startAddr endAddr =
      loadLoop flashWrite 0 fuel text (patch mem address n saved) (min address startAddr)
        (max (address + n - 1) endAddr) := by
  have haddr : address < 2 ^ 32 := by omega
  have hdecode : srecDecode (dataLine address (octets saved address n)) = .ok ⟨.data4, _, address, _⟩ :=
    srecDecode_dataLine haddr (octets_length ▸ hlen) fun v => octets_lt
  rw [octets_length, octets_bytes] at hdecode
  have hstore : (address + 0) % 2 ^ 32 = address := Nat.mod_eq_of_lt haddr
  have hlast : (address + n + (2 ^ 32 - 1)) % 2 ^ 32 = address + n - 1 := by omega
  rw [loadLoop, readRecord_dataLine (octets_length ▸ hlen)]
  dsimp only
  rw [hdecode]
  dsimp only
  rw [if_pos (.inr (.inr rfl)), if_neg (Int.not_lt.mpr (Int.natCast_nonneg n)), hstore, hflash, read_length, hlast,
    memcpy_read htop]
  have hstart : (if address < startAddr then address else startAddr) = min address startAddr := by
    split <;> omega
  have hend : (if address + n - 1 > endAddr then address + n - 1 else endAddr) = max (address + n - 1) endAddr := by
    split <;> omega
  exact congrArg₂ (loadLoop flashWrite 0 fuel text (patch mem address n saved)) hstart hend

theorem loadLoop_end : loadLoop flashWrite 0 (fuel + 1) srec3End mem startAddr endAddr =
    .loaded 0 mem (hexText 8 ((endAddr + (2 ^ 32 - startAddr) + 1) % 2 ^ 32)) := rfl

theorem loadLoop_start : loadLoop flashWrite 0 (fuel + 1) (srec3Start ++ text) mem startAddr endAddr =
    loadLoop flashWrite 0 fuel text mem startAddr endAddr := rfl

theorem loadLoop_records (htop : address + count ≤ 2 ^ 32) (hflash : NoFlash flashWrite address count)
    (hfuel : (saveLoop saved count address 0 [] 0).length < fuel) (hcount : 0 < count) :
    loadLoop flashWrite 0 (fuel + 1) (saveLoop saved count address 0 [] 0 ++ srec3End) mem startAddr endAddr =
      .loaded 0 (patch mem address count saved)
        (hexText 8 ((max (address + count - 1) endAddr + (2 ^ 32 - min address startAddr) + 1) % 2 ^ 32)) := by
  induction count using Nat.strongRecOn generalizing address mem startAddr endAddr fuel with
  | ind count ih =>
    obtain ⟨n, hpos, hle, hlen, hrecord⟩ := saveLoop_record saved hcount htop
    rw [hrecord, append_assoc, cons_append,
      loadLoop_record hpos hlen (by omega) fun data mem => hflash address data mem le_rfl (by omega)]
    rw [hrecord, length_append, length_cons] at hfuel
    obtain ⟨fuel, rfl⟩ := Nat.exists_eq_add_of_lt (Nat.zero_lt_of_lt hfuel)
    rcases eq_or_lt_of_le hle with rfl | hlt
    · rw [Nat.sub_self]
      exact loadLoop_end
    · rw [ih (count - n) (by omega) (by omega) (fun a data mem hlow hhigh => hflash a data mem (by omega) (by omega))
        (by omega) (by omega)]
      have hpatch : patch (patch mem address n saved) (address + n) (count - n) saved = patch mem address count saved := by
        rw [patch_append, show n + (count - n) = count by omega]
      have hend : max (address + n + (count - n) - 1) (max (address + n - 1) endAddr) = max (address + count - 1) endAddr := by
        omega
      have hstart : min (address + n) (min address startAddr) = min address startAddr := by omega
      rw [hpatch, hend, hstart]

theorem loadSerial_saveSerial_pos (htop : address + count ≤ 2 ^ 32) (hflash : NoFlash flashWrite address count)
    (hcount : 0 < count) : loadSerial flashWrite 0 (saveSerial saved address count) mem =
      .loaded 0 (patch mem address count saved) (hexText 8 (count % 2 ^ 32)) := by
  have hlength : (saveLoop saved count address 0 [] 0).length + 1 < (saveSerial saved address count).length := by
    unfold saveSerial
    rw [length_append, length_append]
    show _ < 11 + _ + 15
    omega
  unfold loadSerial
  obtain ⟨fuel, hfuel⟩ := Nat.exists_eq_add_of_lt hlength
  rw [hfuel]
  unfold saveSerial
  rw [append_assoc, loadLoop_start, loadLoop_records htop hflash (by omega) hcount]
  have hsize : (max (address + count - 1) 0 + (2 ^ 32 - min address (2 ^ 32 - 1)) + 1) % 2 ^ 32 = count % 2 ^ 32 := by
    omega
  rw [hsize]

theorem loadSerial_saveSerial_zero : loadSerial flashWrite 0 (saveSerial saved address 0) mem = .loaded 0 mem [50] := rfl

/-- What is written for a range is read back, with the size of the range, exactly if the range is not empty. -/
theorem load_serial_save_serial_iff (htop : address + count ≤ 2 ^ 32) (hsize : count < 2 ^ 32)
    (hflash : NoFlash flashWrite address count) :
    Restored saved mem address count (loadSerial flashWrite 0 (saveSerial saved address count) mem) ↔ count ≠ 0 := by
  constructor
  · rintro ⟨addr, mem', hloaded, _⟩ rfl
    rw [loadSerial_saveSerial_zero] at hloaded
    have htext := (Loaded.loaded.inj hloaded).2.2
    exact absurd htext (by decide)
  · intro hcount
    refine ⟨0, _, loadSerial_saveSerial_pos htop hflash (Nat.pos_of_ne_zero hcount) |>.trans ?_, fun x => rfl⟩
    rw [Nat.mod_eq_of_lt hsize]
    rfl

end

/-- Three bytes at the top of memory. -/
theorem top_of_memory_restored : Restored (fun a => UInt8.ofNat a) (fun _ => 0) 0xfffffffd 3
    (loadSerial (fun _ _ _ => none) 0 (saveSerial (fun a => UInt8.ofNat a) 0xfffffffd 3) (fun _ => 0)) :=
  (load_serial_save_serial_iff (by decide) (by decide) fun _ _ _ _ _ => rfl).mpr (by decide)

/-- For an empty range the size is announced as 2. -/
theorem empty_range_of_size_two : ¬Restored (fun _ => 0) (fun _ => 0) 0x1000 0
    (loadSerial (fun _ _ _ => none) 0 (saveSerial (fun _ => 0) 0x1000 0) (fun _ => 0)) := by
  rintro ⟨addr, mem', hloaded, _⟩
  rw [loadSerial_saveSerial_zero] at hloaded
  exact absurd (Loaded.loaded.inj hloaded).2.2 (by decide)

end UBoot.SRecord
