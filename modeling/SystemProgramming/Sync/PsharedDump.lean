import SystemProgramming.FileIO.HexDump
import SystemProgramming.Sync.PsharedMutex

/-!
# What is shown of the shared buffer

At its end, `main` of `pshared_mutex_demo` (`ch15/`) shows the buffer that the two processes have
written to: eight lines, each with the place of its first byte, with sixteen bytes in hexadecimal
digits, and with the same bytes as characters where they can be printed.

The hexadecimal columns alone lead back to the buffer, with every byte in its place. So what is
shown depends on which of the two was first whenever the buffer does, and that is exactly the case
if the process number of the child has more than five digits
(`SystemProgramming.PsharedMutex.shown_iff`).
-/

namespace SystemProgramming

open Bytes CriticalSection HexDump Printf Runs Strings

namespace PsharedMutex

/-! ### The functions -/

/-- The character that stands for a byte. A byte from 128 on is negative as a `char`, and
`isprint` does not take it for printable. -/
def printed (b : UInt8) : UInt8 := if 32 ≤ b ∧ b ≤ 126 then b else 46

/-- What `print_line` prints before its newline. -/
def lineText (buf : ℕ → UInt8) (start numbytes : ℕ) : List UInt8 :=
  zeroDecimal 8 start ++ ascii "  " ++
    ((List.range' start numbytes).flatMap fun j =>
      zeros 2 (digits 16 (buf j).toNat) ++ [Printf.blank]) ++
    ascii "          " ++ (List.range' start numbytes).map fun j => printed (buf j)

/-- `print_line`. -/
def printLine (buf : ℕ → UInt8) (start numbytes : ℕ) : List UInt8 :=
  lineText buf start numbytes ++ [newline]

/-- `showbuf`. -/
def showbuf (buf : ℕ → UInt8) : List UInt8 :=
  (List.range (GBUFSIZE / 16)).flatMap fun i => printLine buf (i * 16) 16

/-- What `main` shows in the end. -/
def shown (s : System (List (ℕ × List UInt8)) (List UInt8)) : List UInt8 :=
  showbuf fun j => s.shared.getD j 0

/-! ### What can be read -/

/-- A line is read, by its fields: its place, its bytes, and its characters. -/
def readLine (t : List UInt8) : Row where
  label := read 10 (t.take 8)
  hex := readColumns 16 (t.drop 10)
  ascii := t.drop 68

/-- The byte that a column shows. -/
def byteOf : Column → Option UInt8
  | .byte v => some (UInt8.ofNat v)
  | _ => none

/-- The bytes that a text shows in its hexadecimal columns. -/
def contents (t : List UInt8) : List UInt8 :=
  (lines t).flatMap fun l => (readLine l.text).hex.filterMap byteOf

/-- What should be read of a line. -/
def rowFrom (buf : ℕ → UInt8) (start : ℕ) : Row where
  label := some start
  hex := (List.range' start 16).map fun j => .byte (buf j).toNat
  ascii := (List.range' start 16).map fun j => printed (buf j)

section Reading

variable {buf : ℕ → UInt8} {start n : ℕ} {b c : UInt8}

theorem range_printed : 32 ≤ (printed b).toNat := by
  rw [printed]
  split_ifs with h
  · exact UInt8.le_iff_toNat_le.mp h.1
  · decide

/-- Nothing below the blank is in a line. -/
theorem range_lineText (hc : c ∈ lineText buf start n) : 32 ≤ c.toNat := by
  have hascii : ∀ t ∈ [ascii "  ", ascii "          "], ∀ c ∈ t, 32 ≤ c.toNat := by
    decide +kernel
  rw [lineText, List.mem_append, List.mem_append, List.mem_append, List.mem_append] at hc
  rcases hc with (((hlabel | htwo) | hhex) | hten) | hchars
  · exact range_zeroDecimal hlabel
  · exact hascii _ (by simp) c htwo
  · obtain ⟨j, -, hj⟩ := List.mem_flatMap.mp hhex
    exact range_hexCell (o := some (buf j)) hj
  · exact hascii _ (by simp) c hten
  · obtain ⟨j, -, rfl⟩ := List.mem_map.mp hchars
    exact range_printed

theorem newline_notMem_lineText : newline ∉ lineText buf start n := fun h =>
  absurd (range_lineText h) (by decide)

theorem length_label_of_lt (h : start < 10 ^ 8) : (zeroDecimal 8 (start : ℤ)).length = 8 := by
  have hlen := (length_digits_le_iff (b := 10) (k := 8) (by decide) (by decide)).mpr h
  rw [zeroDecimal, if_neg (by omega), length_zeros, Int.natAbs_natCast]
  exact max_eq_left hlen

/-- **A line is read back.** -/
theorem readLine_lineText (h : start < 10 ^ 8) :
    readLine (lineText buf start 16) = rowFrom buf start := by
  have hlabel := length_label_of_lt h
  have hlen : (((List.range' start 16).map fun j => some (buf j)).flatMap hexCell).length = 48 := by
    rw [length_flatMap_hexCell, List.length_map, List.length_range']
  -- the columns are those of the other dump
  have hcells : ((List.range' start 16).flatMap fun j =>
      zeros 2 (digits 16 (buf j).toNat) ++ [Printf.blank]) =
        ((List.range' start 16).map fun j => some (buf j)).flatMap hexCell := by
    rw [List.flatMap_map]
    rfl
  rw [readLine, rowFrom, lineText, hcells]
  congr 1
  · rw [List.append_assoc, List.append_assoc, List.append_assoc, List.take_left' hlabel,
      zeroDecimal, if_neg (by omega), Int.natAbs_natCast, read_zeros_digits (by decide) (by decide)]
  · have hdrop : (zeroDecimal 8 (start : ℤ) ++ ascii "  ").length = 10 := by
      rw [List.length_append, hlabel]
      rfl
    have hcolumns := readColumns_flatMap ((List.range' start 16).map fun j => some (buf j))
      (ascii "          " ++ (List.range' start 16).map fun j => printed (buf j))
    rw [List.length_map, List.length_range'] at hcolumns
    rw [List.append_assoc, List.append_assoc, List.drop_left' hdrop, hcolumns, List.map_map]
    refine List.map_congr_left fun j _ => ?_
    exact readColumn_hexCell (some (buf j))
  · refine List.drop_left' ?_
    have hten : (ascii "          ").length = 10 := rfl
    have htwo : (ascii "  ").length = 2 := rfl
    rw [List.length_append, List.length_append, List.length_append, hlabel, hlen, hten, htwo]

/-- **The lines that are shown.** -/
theorem rows_showbuf (buf : ℕ → UInt8) : (lines (showbuf buf)).map (fun l => readLine l.text) =
    (List.range 8).map fun i => rowFrom buf (i * 16) := by
  have hlines : lines (showbuf buf) =
      (List.range 8).map fun i => ⟨lineText buf (i * 16) 16, true⟩ :=
    lines_flatMap (fun i => lineText buf (i * 16) 16) _ fun i _ => newline_notMem_lineText
  rw [hlines, List.map_map]
  refine List.map_congr_left fun i hi => ?_
  have hlt := List.mem_range.mp hi
  exact readLine_lineText (by omega)

/-- **The buffer is read back**, all 128 bytes of it. -/
theorem contents_showbuf (buf : ℕ → UInt8) : contents (showbuf buf) = slice buf GBUFSIZE := by
  have hrow : ∀ start, (rowFrom buf start).hex.filterMap byteOf =
      (List.range' start 16).map buf := by
    intro start
    rw [rowFrom, List.filterMap_map]
    have hsome : byteOf ∘ (fun j => Column.byte (buf j).toNat) = fun j => some (buf j) := by
      funext j
      exact congrArg some UInt8.ofNat_toNat
    rw [hsome]
    exact congrFun List.filterMap_eq_map' _
  have hflat : contents (showbuf buf) =
      ((lines (showbuf buf)).map fun l => readLine l.text).flatMap
        fun r => r.hex.filterMap byteOf := by
    rw [List.flatMap_map]
    rfl
  have hrange : (List.range 8).flatMap (fun i => List.range' (i * 16) 16) =
      List.range GBUFSIZE := by decide
  rw [hflat, rows_showbuf, List.flatMap_map]
  simp only [hrow]
  rw [slice, ← hrange, List.map_flatMap]

end Reading

/-! ### In any order -/

section Orders

variable {ppid cpid : ℕ} {ls : List ℕ} {s : System (List (ℕ × List UInt8)) (List UInt8)}

/-- In the end, the buffer is as long as it was. -/
theorem length_shared (hp : ppid ≤ 4194304) (hc : cpid ≤ 4194304)
    (hrun : run (step ppid cpid) (.start cleared) ls = some s) (hdone : s.Done 2) :
    s.shared.length = GBUFSIZE := by
  obtain ⟨hshared, hperm⟩ := shared_eq_serial outcome_patch hrun hdone
  have hwrites : (s.entered.flatMap (init ppid cpid)).reverse.Perm
      (workerWrites ppid ++ childWrites cpid) :=
    (List.reverse_perm _).trans (hperm.flatMap_right _)
  rw [hshared, serial_patch, length_patch fun w hw => in_cleared hp hc w (hwrites.mem_iff.mp hw)]
  exact List.length_replicate

/-- **What is shown leads back to the buffer.** -/
theorem contents_shown (hp : ppid ≤ 4194304) (hc : cpid ≤ 4194304)
    (hrun : run (step ppid cpid) (.start cleared) ls = some s) (hdone : s.Done 2) :
    contents (shown s) = s.shared := by
  have hlen := length_shared hp hc hrun hdone
  rw [shown, contents_showbuf]
  refine List.ext_getElem (by rw [length_slice, hlen]) fun i hi hi' => ?_
  simp [slice, List.getD_eq_getElem?_getD, List.getElem?_eq_getElem hi']

/-- With six digits or more, the message of the child reaches the signature of the thread. -/
theorem message_reaches (hlow : 100000 ≤ cpid) (hc : cpid ≤ 4194304) :
    (snprintf 32 (message "child " cpid))[19]? ≠ some 116 ∧
      20 ≤ (snprintf 32 (message "child " cpid)).length := by
  obtain ⟨hlen, hdigits⟩ := length_message "child " hc
  have hwho : "child ".length = 6 := by decide
  have hsix : 6 ≤ (digits 10 cpid).length := by
    by_contra hshort
    have hlt := (length_digits_le_iff (b := 10) (n := cpid) (k := 5) (by decide) (by decide)).mp
      (by omega)
    omega
  rw [snprintf_message (by decide) hc, List.length_append, List.length_singleton]
  refine ⟨?_, by omega⟩
  rcases Nat.lt_or_ge 6 (digits 10 cpid).length with hseven | hsix'
  · have hlast : (message "child " cpid)[19]? = some newline := by
      have hconcat := List.getElem?_concat_length
        (l := ascii "child " ++ decimal cpid ++ ascii " here!") (a := newline)
      have hbefore : (ascii "child " ++ decimal cpid ++ ascii " here!").length = 19 := by
        rw [message, List.length_append, List.length_singleton] at hlen
        omega
      rwa [hbefore] at hconcat
    rw [List.getElem?_append_left (by omega), hlast]
    decide
  · have hend : (message "child " cpid).length = 19 := by omega
    rw [← hend, List.getElem?_concat_length]
    decide

/-- **The order is in the buffer** where the message of the child is so long. -/
theorem exists_orders (hlow : 100000 ≤ cpid) (hc : cpid ≤ 4194304) :
    ∃ ls s ls' s', run (step ppid cpid) (.start cleared) ls = some s ∧ s.Done 2 ∧
      run (step ppid cpid) (.start cleared) ls' = some s' ∧ s'.Done 2 ∧
      s.shared[25]? ≠ s'.shared[25]? := by
  obtain ⟨hne, hlen⟩ := message_reaches hlow hc
  obtain ⟨s, hrun, hdone, hfirst⟩ : ∃ s, run (step ppid cpid) (.start cleared)
      [1, 1, 1, 1, 0, 0, 0, 0] = some s ∧ s.Done 2 ∧ s.entered = [1, 0] :=
    ⟨_, rfl, fun t ht => by interval_cases t <;> rfl, rfl⟩
  obtain ⟨s', hrun', hdone', hfirst'⟩ : ∃ s, run (step ppid cpid) (.start cleared)
      [0, 0, 0, 0, 1, 1, 1, 1] = some s ∧ s.Done 2 ∧ s.entered = [0, 1] :=
    ⟨_, rfl, fun t ht => by interval_cases t <;> rfl, rfl⟩
  refine ⟨_, s, _, s', hrun, hdone, hrun', hdone', ?_⟩
  have hlast : s.shared[25]? = some 116 := by
    rw [(shared_eq_serial outcome_patch hrun hdone).1, serial_patch, hfirst]
    simp only [List.flatMap_cons, List.flatMap_nil, List.append_nil, init, workerWrites,
      if_neg one_ne_zero, if_true, List.reverse_append, List.reverse_cons, List.reverse_nil,
      List.nil_append, List.cons_append, patch_cons]
    generalize patch _ cleared = before
    have hat : (overwrite before 25 (List.replicate 5 116))[25]? = some 116 :=
      getElem?_overwrite_of_mem le_rfl (by decide)
    rw [getElem?_overwrite_of_lt (Or.inl (by decide)) ?_, hat]
    exact (List.getElem?_eq_some_iff.mp hat).1
  have hlast' : s'.shared[25]? = (snprintf 32 (message "child " cpid))[19]? := by
    rw [(shared_eq_serial outcome_patch hrun' hdone').1, serial_patch, hfirst']
    simp only [List.flatMap_cons, List.flatMap_nil, List.append_nil, init, childWrites,
      if_neg one_ne_zero, if_true, List.reverse_append, List.reverse_cons, List.reverse_nil,
      List.nil_append, List.cons_append, patch_cons]
    exact getElem?_overwrite_of_mem (by decide) (by omega)
  rw [hlast, hlast']
  exact hne.symm

/-- **What `main` shows**: in every run the bytes that it shows are those of the buffer; and it
shows the same in all runs exactly if the process number of the child has five digits at most. -/
theorem shown_iff (hp : 1 ≤ ppid ∧ ppid ≤ 4194304) (hc : 1 ≤ cpid ∧ cpid ≤ 4194304) :
    (∀ ls s, run (step ppid cpid) (.start cleared) ls = some s → s.Done 2 →
      contents (shown s) = s.shared) ∧
    ((∃ t, ∀ ls s, run (step ppid cpid) (.start cleared) ls = some s → s.Done 2 → shown s = t) ↔
      cpid < 100000) := by
  refine ⟨fun ls s hrun hdone => contents_shown hp.2 hc.2 hrun hdone, ?_, fun hlt => ?_⟩
  · rintro ⟨t, ht⟩
    by_contra hge
    obtain ⟨ls, s, ls', s', hrun, hdone, hrun', hdone', hne⟩ :=
      exists_orders (Nat.le_of_not_lt hge) hc.2
    refine hne ?_
    rw [← contents_shown hp.2 hc.2 hrun hdone, ← contents_shown hp.2 hc.2 hrun' hdone',
      ht ls s hrun hdone, ht ls' s' hrun' hdone']
  · let buf := patch (workerWrites ppid ++ childWrites cpid) cleared
    refine ⟨showbuf fun j => buf.getD j 0, fun ls s hrun hdone => ?_⟩
    rw [shown, shared_eq_patch hp.2 hlt hrun hdone]

end Orders

/-- A process number of six digits: what is shown depends on the order. -/
theorem shown_iff_six : ¬∃ t, ∀ ls s, run (step 99999 100000) (.start cleared) ls = some s →
    s.Done 2 → shown s = t :=
  fun h => absurd ((shown_iff (by decide) (by decide)).2.mp h) (by decide)

end PsharedMutex

end SystemProgramming
