import Lirc.DumpRead

/-!
The round trip of `fprint_remotes` and `read_config`: the sections with the codes, whole remotes,
and the file.
-/

namespace Lirc

open CString Numeral

/-! ### Sections -/

/-- The reader within a remote. -/
def Parser.within (before : List ConfRemote) (rem : ConfRemote) (mode : Mode) : Parser :=
  { mode, before, rem := some rem, after := [] }

section Sections

variable {before : List ConfRemote} {rem r : ConfRemote} {list : List IrNcode}

/-- A line that opens or closes a section. -/
theorem takes_section (key val : String) {start : String} {p q : Parser}
    (hstart : (start.toList.all lineChar && (words (start.toList ++ ['\n']) ==
      [key.toList, val.toList] && !strcaseeq "include".toList key.toList)) = true)
    (hplain : plainLine p [key.toList, val.toList] = .ok q) : Takes p [dumpLine start []] q := by
  simp only [Bool.and_eq_true, beq_iff_eq, List.all_eq_true, Bool.not_eq_true'] at hstart
  obtain ⟨hchars, hwords, hincl⟩ := hstart
  have hline : dumpLine start [] = start.toList := List.append_nil _
  rw [hline]
  refine .line hchars ?_ ?_
  · rw [hwords]
    intro k hk
    cases hk
    exact hincl
  · rw [hwords, hplain]

/-- A line with values that are indented. -/
theorem indented_words {vals ws : List (List Char)} (hvals : List.Forall₂ Shows vals ws) :
    words (dumpLine "          " vals ++ ['\n']) = ws ∧
      ∀ c ∈ dumpLine "          " vals, lineChar c = true :=
  dumpLine_tokens rfl rfl
    (List.all_eq_true.mp (show "          ".toList.all lineChar = true by decide)) hvals

/-! ### Codes -/

/-- A button as it is read: its name and its codes. -/
def writtenCode (code : IrNcode) : IrNcode :=
  { name := code.name, code := code.code, next := code.next }

theorem hexUpper_head (width : ℕ) (code : IrCode) : (hexUpper width code).head? = some '0' := rfl

/-- A number does not name a section. -/
theorem strcaseeq_hexUpper {name : List Char} (h : name.head?.map Char.toLower ≠ some '0')
    (width : ℕ) (code : IrCode) : strcaseeq name (hexUpper width code) = false := by
  rw [strcaseeq, beq_eq_false_iff_ne]
  intro heq
  have hhead := congrArg List.head? heq
  rw [List.head?_map, List.head?_map, hexUpper_head] at hhead
  exact h hhead

/-- Whatever the name of a button is, its line is read as a code. -/
theorem plainLine_code {p : Parser} (hmode : p.mode = .codes list) (key : List Char) (width : ℕ)
    (code : IrCode) (more : List (List Char)) :
    plainLine p (key :: hexUpper width code :: more) =
      codeLine p list key (hexUpper width code) more := by
  have hcodes : strcaseeq "codes".toList (hexUpper width code) = false :=
    strcaseeq_hexUpper (by decide) width code
  have hraw : strcaseeq "raw_codes".toList (hexUpper width code) = false :=
    strcaseeq_hexUpper (by decide) width code
  have hremote : strcaseeq "remote".toList (hexUpper width code) = false :=
    strcaseeq_hexUpper (by decide) width code
  rw [plainLine, beginSection, endSection, bodyLine]
  simp only [hcodes, hraw, hremote, hmode, Bool.false_eq_true, if_false, ite_self]

theorem mapM_sStrtocode (width : ℕ) (codes : List IrCode) :
    (codes.map (hexUpper width)).mapM sStrtocode = .ok codes := by
  induction codes with
  | nil => rfl
  | cons code codes ih =>
      rw [List.map_cons, List.mapM_cons, ih, sStrtocode_hexUpper]
      rfl

theorem defineCode_hexUpper (key : List Char) (width : ℕ) (code : IrCode) (next : List IrCode) :
    defineCode key (hexUpper width code) (next.map (hexUpper width)) =
      .ok { name := key, code, next } := by
  have hall : (next.map (hexUpper width)).takeWhile (fun v => v.head? ≠ some '#') =
      next.map (hexUpper width) := by
    refine List.takeWhile_eq_self_iff.mpr fun v hv => ?_
    obtain ⟨code, -, rfl⟩ := List.mem_map.mp hv
    rw [hexUpper_head]
    rfl
  rw [defineCode, hall, mapM_sStrtocode, sStrtocode_hexUpper]
  rfl

theorem shows_hexUpper (width : ℕ) (codes : List IrCode) :
    List.Forall₂ Shows (codes.map (hexUpper width)) (codes.map (hexUpper width)) := by
  induction codes with
  | nil => exact .nil
  | cons code codes ih => exact .cons (isWord_hexUpper width code).shows ih

theorem takes_code {code : IrNcode} (hcode : WritableCode r code) (hraw : r.isRaw = false) :
    Takes (.within before rem (.codes list)) (fprintRemoteSignal r code)
      (.within before rem (.codes (list ++ [writtenCode code]))) := by
  rw [fprintRemoteSignal, if_pos (by rw [hraw]; rfl)]
  generalize ((r.bits + 3).tdiv 4).toNat = width
  obtain ⟨hwords, hline⟩ := indented_words (.cons (hcode.name.leftAligned 24)
    (.cons (isWord_hexUpper width code.code).shows (shows_hexUpper width code.next)))
  refine .line hline ?_ ?_
  · rw [hwords]
    intro k hk
    cases hk
    exact hcode.notInclude hraw
  · rw [hwords, plainLine_code rfl, codeLine, defineCode_hexUpper]
    rfl

theorem takes_codes {codes : List IrNcode} (hcodes : ∀ code ∈ codes, WritableCode r code)
    (hraw : r.isRaw = false) :
    Takes (.within before rem (.codes list)) (codes.flatMap (fprintRemoteSignal r))
      (.within before rem (.codes (list ++ codes.map writtenCode))) := by
  induction codes generalizing list with
  | nil =>
      rw [List.map_nil, List.append_nil]
      exact .nil _
  | cons code codes ih =>
      obtain ⟨hcode, hcodes⟩ := List.forall_mem_cons.mp hcodes
      have hlist : list ++ (code :: codes).map writtenCode =
          list ++ [writtenCode code] ++ codes.map writtenCode := by
        rw [List.append_assoc, List.singleton_append, List.map_cons]
      rw [hlist, List.flatMap_cons]
      exact (takes_code hcode hraw).append (ih hcodes)

/-- A remote with the buttons of a section. -/
def ConfRemote.setCodes (rem : ConfRemote) (codes : List IrNcode) : ConfRemote :=
  { rem with codes := some codes }

theorem takes_codesSection {codes : List IrNcode} (hr : r.codes = some codes)
    (hcodes : ∀ code ∈ codes, WritableCode r code) (hraw : r.isRaw = false)
    (hnone : rem.codes = none) :
    Takes (.inSection before rem) (fprintRemoteSignals r)
      (.inSection before (rem.setCodes (codes.map writtenCode))) := by
  have hbegin : Takes (.inSection before rem) (fprintRemoteSignalHead r)
      (.within before rem (.codes [])) := by
    rw [fprintRemoteSignalHead, if_pos (by rw [hraw]; rfl)]
    refine takes_section "begin" "codes" (by decide) ?_
    show (if rem.codes.isSome then Except.error ConfigError.parseError else .ok rem).map _ >>= _ = _
    rw [hnone]
    rfl
  have hend : Takes (.within before rem (.codes (codes.map writtenCode)))
      (fprintRemoteSignalFoot r)
      (.inSection before (rem.setCodes (codes.map writtenCode))) := by
    rw [fprintRemoteSignalFoot, if_pos (by rw [hraw]; rfl)]
    exact (takes_section "end" "codes" (by decide) rfl).append
      (takes_blank _)
  rw [fprintRemoteSignals, hr, Option.getD_some]
  have h := hbegin.append (takes_codes hcodes hraw)
  rw [List.nil_append] at h
  exact h.append hend

/-! ### Raw buttons -/

/-- The buttons of a raw section as they are read: their codes count them. -/
def rawButtons (codes : List IrNcode) : List IrNcode :=
  codes.mapIdx fun i code =>
    { name := code.name, code := BitVec.ofNat 64 (i + 1), signals := code.signals }

theorem rawButtons_concat (codes : List IrNcode) (code : IrNcode) :
    rawButtons (codes ++ [code]) = rawButtons codes ++ [{
      name := code.name, code := BitVec.ofNat 64 ((rawButtons codes).length + 1),
      signals := code.signals }] := by
  rw [rawButtons, List.mapIdx_concat, rawButtons, List.length_mapIdx]

/-- The reader in a raw section: some buttons are complete, of the last one samples have been
read. -/
def rawMode (done : List IrNcode) : Option IrNcode → Mode
  | none => .rawCodes (rawButtons done)
  | some code => .rawName (rawButtons done) code.name (code.signals.getD [])

theorem decimal_head (n : ℕ) : ∃ d < 10, (decimal n).head? = some (Nat.digitChar d) := by
  rcases Nat.eq_zero_or_pos n with rfl | hpos
  · exact ⟨0, by decide, rfl⟩
  · obtain ⟨d, digits, hd, -, hlt⟩ := decimal_cons hpos
    exact ⟨d, hlt, by rw [hd, List.head?_cons]⟩

theorem toLower_digitChar : ∀ d < 10, (Nat.digitChar d).toLower = Nat.digitChar d := by decide

/-- A number is not a keyword. -/
theorem strcaseeq_decimalU32 {name : List Char}
    (h : ∀ d < 10, name.head?.map Char.toLower ≠ some (Nat.digitChar d)) (t : ℤ) :
    strcaseeq name (decimalU32 t) = false := by
  obtain ⟨d, hd, hhead⟩ := decimal_head (t % 2 ^ 32).toNat
  rw [strcaseeq, beq_eq_false_iff_ne]
  intro heq
  have hfirst := congrArg List.head? heq
  rw [List.head?_map, List.head?_map, decimalU32, hhead, Option.map_some,
    toLower_digitChar d hd] at hfirst
  exact h d hd hfirst

theorem foldlM_addSignal {ts : List ℤ} (hts : ∀ t ∈ ts, IsInt32 t) (signals : List ℤ) :
    (ts.map decimalU32).foldlM addSignal signals = .ok (signals ++ ts) := by
  induction ts generalizing signals with
  | nil =>
      rw [List.append_nil]
      rfl
  | cons t ts ih =>
      obtain ⟨ht, hts⟩ := List.forall_mem_cons.mp hts
      have hadd : addSignal signals (decimalU32 t) = .ok (signals ++ [t]) := by
        have hlt : (t % 2 ^ 32).toNat < 2 ^ 32 := by omega
        rw [addSignal, sStrtoui, decimalU32, sStrtou32_decimal hlt]
        exact congrArg (fun n => Except.ok (signals ++ [n])) (toInt32_u32 ht)
      rw [List.map_cons, List.foldlM_cons, hadd]
      show (ts.map decimalU32).foldlM addSignal (signals ++ [t]) = _
      rw [ih hts, List.append_assoc, List.singleton_append]

/-- A line with samples, of which there may be one only. -/
theorem plainLine_samples {p : Parser} {name : Name} {signals : List ℤ}
    (hmode : p.mode = .rawName list name signals) {t : ℤ} {ts : List ℤ}
    (hts : ∀ t' ∈ t :: ts, IsInt32 t') :
    plainLine p ((t :: ts).map decimalU32) =
      .ok { p with mode := .rawName list name (signals ++ t :: ts) } := by
  have hfold := foldlM_addSignal hts signals
  cases ts with
  | nil =>
      have hadd : addSignal signals (decimalU32 t) = .ok (signals ++ [t]) := by
        rw [← hfold, List.map_singleton, List.foldlM_cons]
        cases addSignal signals (decimalU32 t) with
        | error e => rfl
        | ok signals => rfl
      rw [List.map_singleton, plainLine, hmode]
      simp only [hadd]
      rfl
  | cons t' ts =>
      have hbegin : strcaseeq "begin".toList (decimalU32 t) = false :=
        strcaseeq_decimalU32 (by decide) t
      have hend : strcaseeq "end".toList (decimalU32 t) = false :=
        strcaseeq_decimalU32 (by decide) t
      have hname : strcaseeq "name".toList (decimalU32 t) = false :=
        strcaseeq_decimalU32 (by decide) t
      rw [List.map_cons, List.map_cons] at hfold ⊢
      rw [plainLine, hbegin, hend, bodyLine, hmode, rawLine, hname, hmode]
      simp only [Bool.false_eq_true, if_false, hfold]
      rfl

theorem shows_samples (ts : List ℤ) : List.Forall₂ Shows
    (ts.map fun t => padded 7 (decimalU32 t)) (ts.map decimalU32) := by
  induction ts with
  | nil => exact .nil
  | cons t ts ih => exact .cons ((isWord_decimal _).padded 7) ih

theorem takes_samples {name : Name} {signals ts : List ℤ} (hts : ∀ t ∈ ts, IsInt32 t) :
    Takes (.within before rem (.rawName list name signals)) (fprintSamples ts)
      (.within before rem (.rawName list name (signals ++ ts))) := by
  -- a line has up to six samples, and the recursion goes by lines
  induction ts using fprintSamples.induct generalizing signals with
  | case1 =>
      rw [List.append_nil, fprintSamples]
      exact .nil _
  | case2 t ts ih =>
      obtain ⟨hwords, hline⟩ := indented_words (shows_samples ((t :: ts).take 6))
      have htake : ∀ t' ∈ t :: ts.take 5, IsInt32 t' := fun t' ht' =>
        hts t' (List.mem_of_mem_take (i := 6) ht')
      have hfirst : Takes (.within before rem (.rawName list name signals))
          [dumpLine "          " (((t :: ts).take 6).map fun t => padded 7 (decimalU32 t))]
          (.within before rem (.rawName list name (signals ++ t :: ts.take 5))) := by
        refine .line hline ?_ ?_
        · rw [hwords]
          intro k hk
          cases hk
          exact strcaseeq_decimalU32 (by decide) t
        · rw [hwords]
          exact plainLine_samples rfl htake
      have hall : signals ++ t :: ts = signals ++ t :: ts.take 5 ++ ts.drop 5 := by
        rw [List.append_assoc, List.cons_append, List.take_append_drop]
      rw [fprintSamples, hall]
      exact hfirst.append (ih fun t' ht' =>
        hts t' (List.mem_cons_of_mem _ (List.mem_of_mem_drop ht')))

theorem addRaw_ok (list : List IrNcode) (name : Name) {signals : List ℤ}
    (hodd : signals.length % 2 = 1) :
    addRaw list name signals = .ok (list ++ [{
      name, code := BitVec.ofNat 64 (list.length + 1), signals := some signals }]) := by
  rw [addRaw, if_neg (by omega)]

/-- The buttons up to the last one, when that one is complete. -/
theorem addRaw_rawButtons {done : List IrNcode} {code : IrNcode} (hcode : WritableCode r code)
    (hraw : r.isRaw = true) :
    addRaw (rawButtons done) code.name (code.signals.getD []) =
      .ok (rawButtons (done ++ [code])) := by
  obtain ⟨signals, hsignals, hodd, -⟩ := hcode.signals hraw
  rw [hsignals, Option.getD_some, addRaw_ok _ _ hodd, rawButtons_concat, hsignals]

theorem takes_rawName {done : List IrNcode} {last : Option IrNcode} {code : IrNcode}
    (hlast : ∀ code ∈ last, WritableCode r code) (hcode : WritableCode r code)
    (hraw : r.isRaw = true) :
    Takes (.within before rem (rawMode done last)) [dumpLine "          name " [code.name]]
      (.within before rem (.rawName (rawButtons (done ++ last.toList)) code.name [])) := by
  obtain ⟨hwords, hline⟩ := dumpLine_words
    (show startsField "          name " "name".toList = true by decide)
    (.cons hcode.name.shows .nil)
  refine .line hline ?_ ?_
  · rw [hwords]
    intro k hk
    cases hk
    decide
  · rw [hwords]
    -- the button before is entered only now
    cases last with
    | none =>
        rw [Option.toList_none, List.append_nil]
        rfl
    | some last =>
        show (addRaw (rawButtons done) last.name (last.signals.getD []) >>= fun _ => _) = _
        rw [addRaw_rawButtons (hlast last rfl) hraw]
        rfl

theorem takes_button (done : List IrNcode) {last : Option IrNcode} {code : IrNcode}
    (hlast : ∀ code ∈ last, WritableCode r code) (hcode : WritableCode r code)
    (hraw : r.isRaw = true) :
    Takes (.within before rem (rawMode done last)) (fprintRemoteSignal r code)
      (.within before rem (rawMode (done ++ last.toList) (some code))) := by
  obtain ⟨signals, hsignals, -, hints⟩ := hcode.signals hraw
  have hsamples : Takes
      (.within before rem (.rawName (rawButtons (done ++ last.toList)) code.name []))
      (fprintSamples signals) (.within before rem (rawMode (done ++ last.toList) (some code))) := by
    rw [rawMode, hsignals]
    exact takes_samples hints
  rw [fprintRemoteSignal, if_neg (by rw [hraw]; decide), hsignals, Option.getD_some]
  exact (takes_rawName hlast hcode hraw).append (hsamples.append (takes_blank _))

theorem takes_buttons (done : List IrNcode) {last : Option IrNcode} {codes : List IrNcode}
    (hlast : ∀ code ∈ last, WritableCode r code) (hcodes : ∀ code ∈ codes, WritableCode r code)
    (hraw : r.isRaw = true) : ∃ done' last', (∀ code ∈ last', WritableCode r code) ∧
      done' ++ last'.toList = done ++ last.toList ++ codes ∧
      Takes (.within before rem (rawMode done last)) (codes.flatMap (fprintRemoteSignal r))
        (.within before rem (rawMode done' last')) := by
  induction codes generalizing done last with
  | nil => exact ⟨done, last, hlast, (List.append_nil _).symm, .nil _⟩
  | cons code codes ih =>
      obtain ⟨hcode, hcodes⟩ := List.forall_mem_cons.mp hcodes
      have hsome : ∀ code' ∈ some code, WritableCode r code' := by simpa using hcode
      obtain ⟨done', last', hlast', heq, h⟩ := ih (done ++ last.toList) hsome hcodes
      refine ⟨done', last', hlast', ?_,
        (takes_button done hlast hcode hraw).append h⟩
      rw [heq, Option.toList_some, List.append_assoc _ [code], List.singleton_append]

theorem endRawCodes_rawMode {done : List IrNcode} {last : Option IrNcode}
    (hlast : ∀ code ∈ last, WritableCode r code) (hraw : r.isRaw = true) :
    endRawCodes (rawMode done last) = .ok (rawButtons (done ++ last.toList)) := by
  cases last with
  | none => rw [Option.toList_none, List.append_nil, rawMode, endRawCodes]
  | some last => exact addRaw_rawButtons (hlast last rfl) hraw

theorem setProtocol_self {rem : ConfRemote} (hraw : rem.isRaw = true)
    (hflags : rem.flags < 2 ^ 32) : rem.setProtocol rawCodes = rem := by
  have hprotocol : rem.flags &&& protocolMask = rawCodes := beq_iff_eq.mp hraw
  rw [ConfRemote.setProtocol, ← hprotocol, ← Nat.and_or_distrib_left]
  have hmask : 2 ^ 32 - 1 - protocolMask ||| protocolMask = 2 ^ 32 - 1 := by decide
  rw [hmask, Nat.and_two_pow_sub_one_eq_mod, Nat.mod_eq_of_lt hflags]

theorem takes_rawSection {codes : List IrNcode} (hr : r.codes = some codes)
    (hcodes : ∀ code ∈ codes, WritableCode r code) (hraw : r.isRaw = true)
    (hnone : rem.codes = none) (hprotocol : rem.setProtocol rawCodes = rem) :
    Takes (.inSection before rem) (fprintRemoteSignals r)
      (.inSection before (rem.setCodes (rawButtons codes))) := by
  have hbegin : Takes (.inSection before rem) (fprintRemoteSignalHead r)
      (.within before rem (rawMode [] none)) := by
    rw [fprintRemoteSignalHead, if_neg (by rw [hraw]; decide)]
    refine (takes_section "begin" "raw_codes" (by decide)
      ?_).append (takes_blank _)
    show (if rem.codes.isSome then Except.error ConfigError.parseError
      else .ok (rem.setProtocol rawCodes)).map _ >>= _ = _
    rw [hnone, hprotocol]
    rfl
  have hnoLast : ∀ code ∈ (none : Option IrNcode), WritableCode r code := by simp
  obtain ⟨done, last, hlast, heq, hbuttons⟩ : ∃ done last,
      (∀ code ∈ last, WritableCode r code) ∧ done ++ last.toList = codes ∧
      Takes (.within before rem (rawMode [] none)) (codes.flatMap (fprintRemoteSignal r))
        (.within before rem (rawMode done last)) := takes_buttons [] hnoLast hcodes hraw
  have hend : Takes (.within before rem (rawMode done last)) (fprintRemoteSignalFoot r)
      (.inSection before (rem.setCodes (rawButtons codes))) := by
    rw [fprintRemoteSignalFoot, if_neg (by rw [hraw]; decide)]
    refine (takes_section "end" "raw_codes" (by decide)
      ?_).append (takes_blank _)
    show (endRawCodes (rawMode done last) >>= _) = _
    rw [endRawCodes_rawMode hlast hraw, heq]
    rfl
  rw [fprintRemoteSignals, hr, Option.getD_some]
  exact (hbegin.append hbuttons).append hend

end Sections

/-! ### Remotes -/

theorem protocol_namedFlags (flags : ℕ) :
    namedFlags flags &&& protocolMask = flags &&& protocolMask := by
  rw [namedFlags, Nat.and_assoc]
  rfl

theorem isRaw_writtenHead (rem : ConfRemote) : (writtenHead rem).isRaw = rem.isRaw := by
  rw [ConfRemote.isRaw, ConfRemote.protocolIs]
  show (namedFlags rem.flags &&& protocolMask == rawCodes) = _
  rw [protocol_namedFlags]
  rfl

theorem sanityChecks_raw {rem : ConfRemote} {name : Name} (hname : rem.name = some name)
    (hraw : rem.isRaw = true) : sanityChecks rem = .ok rem := by
  rw [sanityChecks, hname]
  exact if_pos hraw

/-- A remote with its buttons when the checks have cut its data. -/
def ConfRemote.masked (rem : ConfRemote) (codes : List IrNcode) : ConfRemote :=
  { rem with
    preData := rem.preData &&& maskOf rem.preDataBits
    postData := rem.postData &&& maskOf rem.postDataBits
    codes := some (codes.map (cutCode (maskOf rem.bits))) }

theorem sanityChecks_codes {rem : ConfRemote} {name : Name} (hname : rem.name = some name)
    (hraw : rem.isRaw = false) (codes : List IrNcode) :
    sanityChecks (rem.setCodes codes) = .ok (rem.masked codes) := by
  have hname' : (rem.setCodes codes).name = some name := hname
  have hraw' : ¬(rem.setCodes codes).isRaw = true := fun h =>
    Bool.false_ne_true (hraw.symm.trans h)
  rw [sanityChecks]
  split
  · next hnone => cases hname'.symm.trans hnone
  · exact if_neg hraw'

/-- A remote as it is read again, before the post-processing. -/
def written (rem : ConfRemote) : ConfRemote :=
  if rem.isRaw then (writtenHead rem).setCodes (rawButtons (rem.codes.getD []))
  else (writtenHead rem).masked ((rem.codes.getD []).map writtenCode)

section Remotes

variable {stamp : DumpStamp} {rem : ConfRemote} {before : List ConfRemote}

theorem takes_signals (hrem : Writable rem) (before : List ConfRemote) :
    ∃ r, sanityChecks r = .ok (written rem) ∧ Takes (.inSection before (writtenHead rem))
      (fprintRemoteSignals rem) (.inSection before r) := by
  obtain ⟨name, hname, -⟩ := hrem.name
  obtain ⟨codes, hcodes, hwritable⟩ := hrem.codes
  have hread : (writtenHead rem).name = some name := hname
  cases hraw : rem.isRaw with
  | true =>
      have hlt : (writtenHead rem).flags < 2 ^ 32 :=
        Nat.and_lt_two_pow _ (Nat.lt_of_lt_of_le (Nat.sub_lt (by decide) (by decide))
          (Nat.pow_le_pow_right (by decide) (by decide)))
      -- `begin raw_codes` sets the protocol that has been read already
      refine ⟨_, ?_, takes_rawSection hcodes hwritable hraw rfl
        (setProtocol_self ((isRaw_writtenHead rem).trans hraw) hlt)⟩
      rw [written, if_pos hraw, hcodes]
      exact sanityChecks_raw hread ((isRaw_writtenHead rem).trans hraw)
  | false =>
      refine ⟨_, ?_, takes_codesSection hcodes hwritable hraw rfl⟩
      rw [written, if_neg (by rw [hraw]; decide), hcodes]
      exact sanityChecks_codes hread ((isRaw_writtenHead rem).trans hraw) _

theorem takes_foot {r r' : ConfRemote} (h : sanityChecks r = .ok r') :
    Takes (.inSection before r) fprintRemoteFoot (.within before r' .none) := by
  refine takes_section "end" "remote" (by decide) ?_
  show (sanityChecks r).map _ >>= _ = _
  rw [h]
  rfl

/-- What is known of the program fits into a line. -/
def DumpStamp.IsLine (stamp : DumpStamp) : Prop :=
  ∀ s ∈ [stamp.version, stamp.driver, stamp.asctime], ∀ c ∈ s, lineChar c = true

theorem takes_comments (hstamp : stamp.IsLine) (hrem : Writable rem) (p : Parser) :
    Takes p (fprintComment stamp rem) p := by
  obtain ⟨name, hname, hword⟩ := hrem.name
  have hline : ∀ start : String, startsComment start = true → Takes p [dumpLine start []] p :=
    fun start hstart => takes_comment p true hstart (List.forall_mem_nil _)
  have hvalue : ∀ (start : String) (v : List Char), startsComment start = true →
      (∀ c ∈ v, lineChar c = true) → Takes p [dumpLine start [v]] p := fun start v hstart hv =>
    takes_comment p true hstart (List.forall_mem_singleton.mpr hv)
  have hprogram : ∀ c ∈ stamp.version ++ '(' :: stamp.driver ++ ") on ".toList ++ stamp.asctime,
      lineChar c = true := by
    have hon : ") on ".toList.all lineChar = true := by decide
    intro c hc
    simp only [List.mem_append, List.mem_cons] at hc
    rcases hc with ((hc | rfl | hc) | hc) | hc
    · exact hstamp _ (by simp) c hc
    · decide
    · exact hstamp _ (by simp) c hc
    · exact List.all_eq_true.mp hon c hc
    · exact hstamp _ (by simp) c hc
  have h := hline "#" (by decide)
  have h := h.append (hline "# this config file was automatically generated" (by decide))
  have h := h.append (hvalue "# using lirc-" _ (by decide) hprogram)
  have h := h.append (hline "#" (by decide))
  have h := h.append (hline "# contributed by " (by decide))
  have h := h.append (hline "#" (by decide))
  have h := h.append (hvalue "# brand:                       " _ (by decide) hword.chars)
  have h := h.append (hline "# model no. of remote control: " (by decide))
  have h := h.append (hline "# devices being controlled by this remote:" (by decide))
  have h := h.append (hline "#" (by decide))
  have h := h.append (takes_blank p)
  rw [fprintComment, hname]
  exact h

/-- A remote is read as it has been written. -/
theorem takes_remote (hstamp : stamp.IsLine) (hrem : Writable rem) {p : Parser}
    (hmode : p.mode = .none) :
    Takes p (fprintRemote stamp rem ++ [[], []])
      (.within (p.before ++ p.rem.toList) (written rem) .none) := by
  obtain ⟨r, hsanity, hsignals⟩ := takes_signals hrem (p.before ++ p.rem.toList)
  have hend : ∀ p, Takes p [[], []] p := fun p => (takes_blank p).append (takes_blank p)
  rw [fprintRemote]
  exact ((((takes_comments hstamp hrem p).append (takes_head hrem hmode)).append
    hsignals).append (takes_foot hsanity)).append (hend _)

theorem takes_remotes (hstamp : stamp.IsLine) {rems : List ConfRemote}
    (hrems : ∀ rem ∈ rems, Writable rem) {p : Parser} (hmode : p.mode = .none)
    (hafter : p.after = []) : ∃ q, q.mode = .none ∧ q.chain = p.chain ++ rems.map written ∧
      Takes p (fprintRemotes stamp rems) q := by
  induction rems generalizing p with
  | nil => exact ⟨p, hmode, (List.append_nil _).symm, .nil p⟩
  | cons rem rems ih =>
      obtain ⟨hrem, hrems⟩ := List.forall_mem_cons.mp hrems
      obtain ⟨q, hq, hchain, h⟩ := ih hrems (p := .within _ (written rem) .none) rfl rfl
      refine ⟨q, hq, ?_, (takes_remote hstamp hrem hmode).append h⟩
      rw [hchain, Parser.chain, Parser.chain, hafter, List.append_nil]
      show p.before ++ p.rem.toList ++ [written rem] ++ [] ++ rems.map written = _
      rw [List.append_nil, List.append_assoc, List.singleton_append, List.map_cons]

theorem codes_written (rem : ConfRemote) : (written rem).codes.isSome = true := by
  rw [written]
  split
  · rfl
  · rfl

end Remotes

/-! ### The file -/

theorem fgetsAll_wholeLines {text : List Char} {lines : List (List Char)}
    (htext : wholeLines text = lines) (hshort : ∀ l ∈ lines, l.length < lineLen) :
    fgetsAll text = lines := by
  induction lines generalizing text with
  | nil =>
      rw [wholeLines_eq_nil htext, fgetsAll]
      rfl
  | cons line lines ih =>
      obtain ⟨hline, hlines⟩ := List.forall_mem_cons.mp hshort
      obtain ⟨rest, hrest, hall⟩ := fgetsAll_cons htext hline
      rw [hall, ih hrest hlines]

theorem wholeLines_append {line : List Char} (h : '\n' ∉ line) (text : List Char) :
    wholeLines (line ++ '\n' :: text) = (line ++ ['\n']) :: wholeLines text := by
  induction line with
  | nil => rfl
  | cons c line ih =>
      obtain ⟨hc, hline⟩ := not_or.mp (List.mem_cons.not.mp h)
      rw [List.cons_append, wholeLines, if_neg fun heq => hc heq.symm, ih hline]
      rfl

theorem wholeLines_stream {lines : List (List Char)} (h : ∀ l ∈ lines, '\n' ∉ l) :
    wholeLines (Lines.stream '\n' lines) = lines.map (· ++ ['\n']) := by
  induction lines with
  | nil => rfl
  | cons line lines ih =>
      obtain ⟨hline, hlines⟩ := List.forall_mem_cons.mp h
      rw [Lines.stream_cons, wholeLines_append hline, ih hlines, List.map_cons]

/-- The remotes that are read from a file that has been written for `rems`. -/
def readBack (rems : List ConfRemote) : List ConfRemote :=
  sortByBitCount (rems.map fun rem => postProcess (written rem))

theorem readConfig_dumpText (files : List Char → Option (List Char)) (name : List Char)
    {stamp : DumpStamp} (hstamp : stamp.IsLine) {rems : List ConfRemote}
    (hrems : ∀ rem ∈ rems, Writable rem)
    (hshort : ∀ l ∈ fprintRemotes stamp rems, l.length + 1 < lineLen) :
    readConfig files name (dumpText stamp rems) = .ok (readBack rems) := by
  obtain ⟨q, hmode, hchain, htakes⟩ := takes_remotes hstamp hrems (p := {}) rfl rfl
  have hlines : fgetsAll (dumpText stamp rems) = (fprintRemotes stamp rems).map (· ++ ['\n']) := by
    refine fgetsAll_wholeLines (wholeLines_stream fun l hl hmem => ?_) fun l hl => ?_
    · exact absurd (htakes.chars l hl _ hmem) (by decide)
    · obtain ⟨l, hmem, rfl⟩ := List.mem_map.mp hl
      simpa using hshort l hmem
  have hread : readLines files (maxIncludes + 1) name {} (fgetsAll (dumpText stamp rems)) =
      .ok q := by
    have hreads := fun incl => htakes.reads hshort incl []
    rw [hlines, readLines]
    rw [List.append_nil] at hreads
    exact hreads _
  rw [readConfig, readConfigLines, hread]
  show finish q = _
  have hcodes : ¬(rems.map written).any (·.codes.isNone) = true := by
    simp only [List.any_map, List.any_eq_true, Function.comp_apply, not_exists, not_and]
    intro rem _
    rw [Option.isNone_iff_eq_none, ← ne_eq, Option.ne_none_iff_isSome]
    exact codes_written rem
  have hall : q.chain = rems.map written := hchain
  rw [finish, checkMode, if_pos hmode, hall, if_neg hcodes, List.map_map]
  rfl

/-- A file that has been written is read: its remotes are those that have been written, with the
fields that are written, in the order of their bit counts. -/
theorem readConfig_dump (files : List Char → Option (List Char)) (name : List Char)
    {stamp : DumpStamp} (hstamp : stamp.IsLine) {rems : List ConfRemote}
    (hrems : ∀ rem ∈ rems, Writable rem)
    (hshort : ∀ l ∈ fprintRemotes stamp rems, l.length + 1 < lineLen) :
    ∃ remotes, readConfig files name (dumpText stamp rems) = .ok remotes ∧
      remotes.Perm (rems.map fun rem => postProcess (written rem)) ∧ ByBitCount remotes :=
  ⟨_, readConfig_dumpText files name hstamp hrems hshort, sortByBitCount_perm _,
    sortByBitCount_sorted _⟩

/-- A remote with a button of two codes. -/
def dumpedTv : ConfRemote where
  name := some "TV".toList
  codes := some [{ name := "KEY_OK".toList, code := 0x10, next := [0x11] },
    { name := "KEY_UP".toList, code := 0x1C2 }]
  bits := 8
  flags := spaceEnc ||| constLength
  eps := 30
  aeps := 100
  phead := 9000
  shead := 4500
  pone := 560
  sone := 1690
  pzero := 560
  szero := 560
  ptrail := 560
  preDataBits := 16
  preData := 0x20DF
  gap := 108000
  minRepeat := 1

def dumpStamp : DumpStamp := ⟨"0.9.0".toList, "default".toList, "Fri Nov 20 2026".toList⟩

theorem isLine_dumpStamp : dumpStamp.IsLine := by
  have hall : ∀ s ∈ [dumpStamp.version, dumpStamp.driver, dumpStamp.asctime],
      s.all lineChar = true := by decide
  exact fun s hs => List.all_eq_true.mp (hall s hs)

theorem IsWord.of_all {w : List Char} (hne : w ≠ []) (h : w.all wordChar = true) : IsWord w :=
  ⟨hne, List.all_eq_true.mp h⟩

theorem writable_dumpedTv : Writable dumpedTv where
  name := ⟨_, rfl, .of_all (by decide) (by decide)⟩
  bits := by decide
  ints := by simp [ConfRemote.intFields, IsInt32, dumpedTv]
  words := by decide
  oneProtocol := by
    have hall : ∀ i < 11, ∀ j < 11, dumpedTv.flags.testBit i = true →
        dumpedTv.flags.testBit j = true → i = j := by decide
    exact fun i j hi hj => hall i hi j hj
  serial h := absurd h (by decide)
  codes := by
    refine ⟨_, rfl, ?_⟩
    simp only [List.forall_mem_cons]
    refine ⟨?_, ?_, List.forall_mem_nil _⟩
    · exact ⟨.of_all (by decide) (by decide), fun _ => by decide, fun h => absurd h (by decide)⟩
    · exact ⟨.of_all (by decide) (by decide), fun _ => by decide, fun h => absurd h (by decide)⟩

/-- A remote with fewer bits, and codes of a protocol of its own. -/
def dumpedPad : ConfRemote where
  name := some "PAD".toList
  codes := some [{ name := "1".toList, code := 0x1001 }, { name := "2".toList, code := 0x1002 }]
  bits := 13
  flags := rc5
  eps := 20
  aeps := 200
  pone := 889
  sone := 889
  pzero := 889
  szero := 889
  plead := 889
  gap := 113792
  toggleBitMask := 0x800

theorem writable_dumpedPad : Writable dumpedPad where
  name := ⟨_, rfl, .of_all (by decide) (by decide)⟩
  bits := by decide
  ints := by simp [ConfRemote.intFields, IsInt32, dumpedPad]
  words := by decide
  oneProtocol := by
    have hall : ∀ i < 11, ∀ j < 11, dumpedPad.flags.testBit i = true →
        dumpedPad.flags.testBit j = true → i = j := by decide
    exact fun i j hi hj => hall i hi j hj
  serial h := absurd h (by decide)
  codes := by
    refine ⟨_, rfl, ?_⟩
    simp only [List.forall_mem_cons]
    refine ⟨?_, ?_, List.forall_mem_nil _⟩
    · exact ⟨.of_all (by decide) (by decide), fun _ => by decide, fun h => absurd h (by decide)⟩
    · exact ⟨.of_all (by decide) (by decide), fun _ => by decide, fun h => absurd h (by decide)⟩

/-- The remotes of a file; the second has fewer bits and comes first in the list that is read. -/
def dumpedTwo : List ConfRemote := [dumpedTv, dumpedPad]

theorem writable_dumpedTwo : ∀ rem ∈ dumpedTwo, Writable rem :=
  List.forall_mem_cons.mpr ⟨writable_dumpedTv, List.forall_mem_singleton.mpr writable_dumpedPad⟩

theorem readConfig_dump_two : (∃ remotes,
    readConfig (fun _ => none) [] (dumpText dumpStamp dumpedTwo) = .ok remotes ∧
      remotes.Perm (dumpedTwo.map fun rem => postProcess (written rem)) ∧ ByBitCount remotes) ∧
    (readBack dumpedTwo).map (·.name) = [dumpedPad.name, dumpedTv.name] :=
  ⟨readConfig_dump (fun _ => none) [] isLine_dumpStamp writable_dumpedTwo (by decide +kernel),
    by decide +kernel⟩

end Lirc
