import CodexMemory.Outbox.Effects

/-!
# Crashes of the local outbox

The process may die between two operations or inside an append.  A file is safe
as long as no append begins inside a line and no part of a character is left:
`Holds` says that the whole lines of a file hold at least some records, and
`SafeIn` that every accepted record of a project is delivered or in a file.

* `safeIn_step`: every call keeps that, wherever the process dies in it;
* `accepted_survive_crashes`: so no accepted record is lost in any run;
* `enqueue_after_torn_append_lost`: after a torn line the next record is.
-/

namespace CodexMemory.Outbox

variable {F : Type}

/-! ## What has become of a record -/

/-- The records for which `enqueue` returned in a project. -/
def World.acceptedOf (w : World F) (project : String) : List (Fields F) :=
  (w.accepted.filter fun a => decide (a.1 = project)).map Prod.snd

/-- The records of a project for which `send` returned. -/
def World.deliveredOf (w : World F) (project : String) : List (Fields F) :=
  (w.sent.filter fun s => decide (s.1 = project ∧ s.2.2 = .returned)).map fun s => s.2.1

/-- The strings that `enqueue` stores have none of U+0085, U+2028 and U+2029. -/
def Call.Plain (py : Python F) : Call F → Prop
  | .enqueue projectId payload reason now => ∀ eventKey,
      payload.fields.lookup "event_key" = some (.str eventKey) →
      isPlain (.obj (newRecord py projectId eventKey payload.fields reason now)) = true
  | .replay _ _ _ _ => True

/-- A complete append began a line, and a torn one left whole characters. -/
def Append.Sound (a : Append) : Prop :=
  match a.torn with
  | none => ∃ t, a.before = encode t ∧ AtLineStart t
  | some bytes => ((encode a.text).extract 0 bytes).IsValidUTF8

def AllSound (w : World F) : Prop := ∀ a ∈ w.appends, a.Sound

/-! ## Files -/

section Files

variable [Json.PyFloat F]

/-- The whole lines of the file hold at least these records. -/
def Holds (content : ByteArray) (ids : Multiset (Fields F)) : Prop :=
  ∃ lines tail, content = encode (lines ++ tail) ∧ AtLineStart lines ∧ ids ≤ identities (recordsOfText lines)

theorem holds_empty : Holds ByteArray.empty (0 : Multiset (Fields F)) :=
  ⟨[], [], rfl, Or.inl rfl, Multiset.zero_le _⟩

/-- The reader finds them. -/
theorem Holds.read {content : ByteArray} {ids : Multiset (Fields F)} (h : Holds content ids) :
    ∃ records, readRecords content = some records ∧ ids ≤ identities records := by
  obtain ⟨lines, tail, rfl, hlines, hids⟩ := h
  refine ⟨_, readRecords_encode _, hids.trans ?_⟩
  rw [recordsOfText_append hlines, identities_append]
  exact Multiset.le_add_right _ _

/-- A complete append of whole lines that begins a line adds its records. -/
theorem Holds.append {content : ByteArray} {ids : Multiset (Fields F)} (h : Holds content ids)
    (hbegin : ∃ t, content = encode t ∧ AtLineStart t) {text : List Char} (htext : AtLineStart text) :
    Holds (content ++ encode text) (ids + identities (recordsOfText text)) := by
  obtain ⟨lines, tail, rfl, hlines, hids⟩ := h
  obtain ⟨t, ht, hstart⟩ := hbegin
  rw [encode_injective ht]
  refine ⟨t ++ text, [], ?_, atLineStart_append hstart htext, ?_⟩
  · rw [List.append_nil, encode_append]
  · rw [recordsOfText_append hstart, identities_append, ← encode_injective ht, recordsOfText_append hlines,
      identities_append]
    exact add_le_add (hids.trans (Multiset.le_add_right _ _)) (le_refl _)

/-- A torn append adds to the tail. -/
theorem Holds.torn {content bytes : ByteArray} {ids : Multiset (Fields F)} (h : Holds content ids)
    (hbytes : bytes.IsValidUTF8) : Holds (content ++ bytes) ids := by
  obtain ⟨lines, tail, rfl, hlines, hids⟩ := h
  obtain ⟨t, rfl⟩ := exists_encode hbytes
  exact ⟨lines, tail ++ t, by rw [← encode_append, List.append_assoc], hlines, hids⟩

theorem identities_recordLine (record : Fields F) :
    identities [record] ≤ identities (recordsOfText (recordLine record)) := by
  cases hr : isStorable record with
  | false =>
    have hnil : identities [record] = 0 := by simp [identities, hr]
    rw [hnil]
    exact Multiset.zero_le _
  | true => rw [recordsOfText_recordLine hr]

/-- A rewritten file holds its records. -/
theorem holds_lines (records : List (Fields F)) :
    Holds (encode (records.flatMap recordLine)) (identities records) := by
  refine ⟨records.flatMap recordLine, [], by rw [List.append_nil], lines_atLineStart records, ?_⟩
  induction records with
  | nil => exact Multiset.zero_le _
  | cons record records ih =>
    rw [identities_cons, List.flatMap_cons, recordsOfText_append (recordLine_atLineStart record), identities_append]
    exact add_le_add (identities_recordLine record) ih

end Files

/-! ## Operations -/

/-- The project directory that an operation is about. -/
def Op.directory : Op F → String
  | .send project _ _ => project
  | .append project _ _ => project
  | .replace project _ => project
  | .unlink project => project

theorem allSound_of_exec {w : World F} {op : Op F} (h : AllSound (op.exec w)) : AllSound w := by
  cases op with
  | append project file text => exact fun a ha => h a (List.mem_append_left _ ha)
  | send project record outcome => exact h
  | replace project text => exact h
  | unlink project => exact h

theorem allSound_of_torn {w : World F} {op : Op F} {bytes : Nat} (h : AllSound (op.torn w bytes)) :
    AllSound w := by
  cases op with
  | append project file text => exact fun a ha => h a (List.mem_append_left _ ha)
  | send project record outcome => exact h
  | replace project text => exact h
  | unlink project => exact h

theorem content_write (w : World F) (project : String) (file : File) (content : Option ByteArray)
    (p : String) (f : File) : (w.write project file content).content p f =
      if p = project ∧ f = file then content.getD ByteArray.empty else w.content p f := by
  rw [World.content, World.write]
  simp only
  split
  · rfl
  · rfl

variable [Json.PyFloat F]

/-- If every append was sound, so many records of a project are delivered and in
its files. -/
def Has (w : World F) (project : String) (delivered : Multiset (Fields F))
    (held : File → Multiset (Fields F)) : Prop :=
  AllSound w → delivered ≤ identities (w.deliveredOf project) ∧ ∀ file, Holds (w.content project file) (held file)

variable {w : World F} {project : String} {delivered : Multiset (Fields F)} {held : File → Multiset (Fields F)}

theorem Has.mono (h : Has w project delivered held) {delivered' : Multiset (Fields F)}
    {held' : File → Multiset (Fields F)} (hdelivered : delivered' ≤ delivered)
    (hheld : ∀ file, held' file ≤ held file) : Has w project delivered' held' := by
  intro hsound
  obtain ⟨hle, hfiles⟩ := h hsound
  refine ⟨hdelivered.trans hle, fun file => ?_⟩
  obtain ⟨lines, tail, htext, hlines, hids⟩ := hfiles file
  exact ⟨lines, tail, htext, hlines, (hheld file).trans hids⟩

omit [Json.PyFloat F] in
theorem deliveredOf_send (w : World F) (p : String) (record : Fields F) (outcome : Outcome) (q : String) :
    (Op.exec w (.send p record outcome)).deliveredOf q =
      w.deliveredOf q ++ if p = q ∧ outcome = .returned then [record] else [] := by
  rw [World.deliveredOf, Op.exec]
  simp only [List.filter_append, List.map_append]
  split
  · next h => rw [List.filter_cons_of_pos (by simpa using h)]; rfl
  · next h => rw [List.filter_cons_of_neg (by simpa using h)]; rfl

theorem Has.send (h : Has w project delivered held) (record : Fields F) (outcome : Outcome) :
    Has (Op.exec w (.send project record outcome)) project
      (delivered + identities (if outcome = .returned then [record] else [])) held := by
  intro hsound
  obtain ⟨hdelivered, hfiles⟩ := h hsound
  refine ⟨?_, hfiles⟩
  rw [deliveredOf_send, identities_append]
  simp only [true_and]
  exact add_le_add hdelivered (le_refl _)

/-- A complete append of a record adds it to the file. -/
theorem Has.append (h : Has w project delivered held) (file : File) (record : Fields F) :
    Has (Op.exec w (.append project file (recordLine record))) project delivered
      (fun f => if f = file then held f + identities [record] else held f) := by
  intro hsound
  obtain ⟨hdelivered, hfiles⟩ := h (allSound_of_exec hsound)
  have hbegin : (⟨w.content project file, recordLine record, none⟩ : Append).Sound :=
    hsound _ (List.mem_append_right _ List.mem_cons_self)
  refine ⟨hdelivered, fun f => ?_⟩
  have hcontent : (Op.exec w (.append project file (recordLine record))).content project f =
      if f = file then w.content project file ++ encode (recordLine record) else w.content project f := by
    have hwrite := content_write w project file (some (w.content project file ++ encode (recordLine record)))
      project f
    simp only [true_and] at hwrite
    exact hwrite
  rw [hcontent]
  split
  · next hf =>
    subst hf
    obtain ⟨lines, tail, htext, hlines, hids⟩ := (hfiles f).append hbegin (recordLine_atLineStart record)
    refine ⟨lines, tail, htext, hlines, ?_⟩
    simp only [if_true]
    exact (add_le_add (le_refl _) (identities_recordLine record)).trans hids
  · next hf =>
    simp only [if_neg hf]
    exact hfiles f

/-- A torn append takes nothing away. -/
theorem Has.torn (h : Has w project delivered held) (op : Op F) (bytes : Nat) :
    Has (op.torn w bytes) project delivered held := by
  intro hsound
  obtain ⟨hdelivered, hfiles⟩ := h (allSound_of_torn hsound)
  cases op with
  | send p record outcome => exact ⟨hdelivered, hfiles⟩
  | replace p text => exact ⟨hdelivered, hfiles⟩
  | unlink p => exact ⟨hdelivered, hfiles⟩
  | append p file text =>
    have hwhole : (⟨w.content p file, text, some bytes⟩ : Append).Sound :=
      hsound _ (List.mem_append_right _ List.mem_cons_self)
    refine ⟨hdelivered, fun f => ?_⟩
    have hcontent : (Op.torn w bytes (.append p file text)).content project f =
        if project = p ∧ f = file then w.content p file ++ (encode text).extract 0 bytes
        else w.content project f := content_write w p file _ project f
    rw [hcontent]
    split
    · next hf =>
      obtain ⟨rfl, rfl⟩ := hf
      exact (hfiles f).torn hwhole
    · exact hfiles f

/-- The rewritten pending file holds the remaining records. -/
theorem Has.rewrite (h : Has w project delivered held) (records : List (Fields F)) :
    Has (Op.exec w (if records = [] then .unlink project else .replace project (records.flatMap recordLine)))
      project delivered (fun f => if f = .pending then identities records else held f) := by
  intro hsound
  obtain ⟨hdelivered, hfiles⟩ := h (allSound_of_exec hsound)
  have hwritten : ∀ content : Option ByteArray, Holds (content.getD ByteArray.empty) (identities records) →
      ∀ f, Holds ((w.write project .pending content).content project f)
        (if f = .pending then identities records else held f) := by
    intro content hcontent f
    rw [content_write]
    simp only [true_and]
    split
    · exact hcontent
    · exact hfiles f
  cases records with
  | nil => exact ⟨hdelivered, hwritten none holds_empty⟩
  | cons record records => exact ⟨hdelivered, hwritten (some _) (holds_lines (record :: records))⟩

theorem Has.frame (h : Has w project delivered held) {op : Op F} (hne : op.directory ≠ project) :
    Has (op.exec w) project delivered held := by
  intro hsound
  obtain ⟨hdelivered, hfiles⟩ := h (allSound_of_exec hsound)
  have hwritten : ∀ p file content, p ≠ project → ∀ f,
      Holds ((w.write p file content).content project f) (held f) := by
    intro p file content hp f
    rw [content_write, if_neg fun h => hp h.1.symm]
    exact hfiles f
  cases op with
  | send p record outcome =>
    refine ⟨?_, hfiles⟩
    rw [deliveredOf_send, if_neg fun h => hne h.1, List.append_nil]
    exact hdelivered
  | append p file text => exact ⟨hdelivered, hwritten p file _ hne⟩
  | replace p text => exact ⟨hdelivered, hwritten p .pending _ hne⟩
  | unlink p => exact ⟨hdelivered, hwritten p .pending _ hne⟩

/-! ## Lists of operations -/

omit [Json.PyFloat F] in
/-- What holds of the world when the operations are done, and when the process died in them. -/
def Progress.Ends (onDone onDeath : World F → Prop) : Progress F → Prop
  | .done w _ => onDone w
  | .died w => onDeath w

omit [Json.PyFloat F] in
/-- Operations one after another. -/
theorem ends_append {a b : List (Op F)} {crash : Option Crash} {middle onDone onDeath : World F → Prop}
    (ha : (runOps a crash w).Ends middle onDeath)
    (hb : ∀ w' crash', middle w' → (runOps b crash' w').Ends onDone onDeath) :
    (runOps (a ++ b) crash w).Ends onDone onDeath := by
  induction a generalizing w crash with
  | nil => exact hb w crash ha
  | cons op ops ih =>
    cases crash with
    | none => exact ih ha
    | some crash =>
      obtain ⟨operations, bytes⟩ := crash
      cases operations with
      | zero => exact ha
      | succ n => exact ih ha

omit [Json.PyFloat F] in
/-- One operation. -/
theorem ends_singleton {op : Op F} {crash : Option Crash} {onDone onDeath : World F → Prop}
    (hexec : onDone (op.exec w)) (htorn : ∀ bytes, onDeath (op.torn w bytes)) :
    (runOps [op] crash w).Ends onDone onDeath := by
  cases crash with
  | none => exact hexec
  | some crash =>
    obtain ⟨operations, bytes⟩ := crash
    cases operations with
    | zero => exact htorn bytes
    | succ n => exact hexec

omit [Json.PyFloat F] in
theorem Progress.Ends.mono {p : Progress F} {onDone onDeath onDone' onDeath' : World F → Prop}
    (h : p.Ends onDone onDeath) (hdone : ∀ w, onDone w → onDone' w) (hdeath : ∀ w, onDeath w → onDeath' w) :
    p.Ends onDone' onDeath' := by
  cases p with
  | done w crash => exact hdone w h
  | died w => exact hdeath w h

/-- Operations on other projects. -/
theorem ends_frame {ops : List (Op F)} (hops : ∀ op ∈ ops, op.directory ≠ project) (crash : Option Crash)
    (h : Has w project delivered held) :
    (runOps ops crash w).Ends (fun w' => Has w' project delivered held)
      (fun w' => Has w' project delivered held) := by
  induction ops generalizing w crash with
  | nil => exact h
  | cons op ops ih =>
    have hfirst : (runOps [op] crash w).Ends (fun w' => Has w' project delivered held)
        (fun w' => Has w' project delivered held) :=
      ends_singleton (h.frame (hops op List.mem_cons_self)) fun bytes => h.torn op bytes
    rw [← List.singleton_append]
    exact ends_append hfirst fun w' crash' h' => ih (fun op hop => hops op (List.mem_cons_of_mem _ hop)) crash' h'

theorem ends_sends (sends : List (Fields F × Outcome)) (crash : Option Crash)
    (h : Has w project delivered held) :
    (runOps (sends.map fun s => .send project s.1 s.2) crash w).Ends
      (fun w' => Has w' project (delivered +
        identities ((sends.filter fun s => decide (s.2 = .returned)).map Prod.fst)) held)
      (fun w' => Has w' project delivered held) := by
  induction sends generalizing w crash delivered with
  | nil => exact h.mono (by simp [identities]) fun _ => le_refl _
  | cons s sends ih =>
    have hfirst : (runOps [.send project s.1 s.2] crash w).Ends (fun w' => Has w' project (delivered +
        identities (if s.2 = .returned then [s.1] else [])) held) (fun w' => Has w' project delivered held) :=
      ends_singleton (h.send s.1 s.2) fun bytes => h.torn _ bytes
    show (runOps ([.send project s.1 s.2] ++ sends.map fun s => .send project s.1 s.2) crash w).Ends _ _
    refine ends_append hfirst fun w' crash' h' => ?_
    refine (ih crash' h').mono (fun w'' hdone => ?_) fun w'' hdeath =>
      hdeath.mono (Multiset.le_add_right _ _) fun _ => le_refl _
    have hsplit : identities (((s :: sends).filter fun s => decide (s.2 = .returned)).map Prod.fst) =
        identities (if s.2 = .returned then [s.1] else []) +
          identities ((sends.filter fun s => decide (s.2 = .returned)).map Prod.fst) := by
      rw [← identities_append]
      split
      · next hs => rw [List.filter_cons_of_pos (by simpa using hs)]; rfl
      · next hs => rw [List.filter_cons_of_neg (by simpa using hs)]; rfl
    rw [hsplit, ← add_assoc]
    exact hdone

/-- The dead letters are appended one by one. -/
theorem ends_deadLetters (records : List (Fields F)) (crash : Option Crash)
    (h : Has w project delivered held) :
    (runOps (records.map fun record => .append project .deadLetter (recordLine record)) crash w).Ends
      (fun w' => Has w' project delivered
        fun f => if f = .deadLetter then held f + identities records else held f)
      (fun w' => Has w' project delivered held) := by
  induction records generalizing w crash held with
  | nil =>
    refine h.mono (le_refl _) fun f => ?_
    split
    · exact le_of_eq (add_zero _)
    · exact le_refl _
  | cons record records ih =>
    have hfirst : (runOps [.append project .deadLetter (recordLine record)] crash w).Ends
        (fun w' => Has w' project delivered
          fun f => if f = .deadLetter then held f + identities [record] else held f)
        (fun w' => Has w' project delivered held) :=
      ends_singleton (h.append .deadLetter record) fun bytes => h.torn _ bytes
    show (runOps ([.append project .deadLetter (recordLine record)] ++
      records.map fun record => .append project .deadLetter (recordLine record)) crash w).Ends _ _
    refine ends_append hfirst fun w' crash' h' => ?_
    refine (ih crash' h').mono (fun w'' hdone => ?_) fun w'' hdeath => ?_
    · refine hdone.mono (le_refl _) fun f => ?_
      split
      · rw [identities_cons record records, add_assoc]
      · exact le_refl _
    · refine hdeath.mono (le_refl _) fun f => ?_
      split
      · exact Multiset.le_add_right _ _
      · exact le_refl _

/-! ## Calls -/

/-- Every accepted record of a project is delivered or in its files. -/
def SafeIn (w : World F) (project : String) : Prop :=
  ∃ delivered held, Has w project delivered held ∧
    identities (w.acceptedOf project) ≤ delivered + held .deadLetter + held .pending

/-- The directory operations of `replay` keep the records of the directory. -/
theorem ends_pass (py : Python F) (now : Nat) {records : List (Fields F)} (attempt : Nat → Attempt)
    (crash : Option Crash) (h : Has w project delivered held) (hread : held .pending ≤ identities records) :
    (runOps ((passRecords py now records attempt).ops project) crash w).Ends
      (fun w' => ∃ delivered' held', Has w' project delivered' held' ∧
        delivered + held .deadLetter + held .pending ≤ delivered' + held' .deadLetter + held' .pending)
      (fun w' => ∃ delivered' held', Has w' project delivered' held' ∧
        delivered + held .deadLetter + held .pending ≤ delivered' + held' .deadLetter + held' .pending) := by
  have hkeeps := passRecords_keeps py now records attempt
  generalize passRecords py now records attempt = pass at hkeeps
  rw [Pass.ops]
  refine ends_append ((ends_sends pass.sends crash h).mono (fun _ h' => h') fun w' h' =>
    ⟨delivered, held, h', le_refl _⟩) fun w₁ crash₁ h₁ => ?_
  cases herror : pass.error with
  | some error =>
    refine ⟨_, _, h₁, ?_⟩
    gcongr
    exact Multiset.le_add_right _ _
  | none =>
    have hmore : delivered + held .deadLetter + held .pending ≤
        delivered + identities pass.delivered + held .deadLetter + held .pending := by
      gcongr
      exact Multiset.le_add_right _ _
    refine ends_append ((ends_deadLetters pass.deadRecords crash₁ h₁).mono (fun _ h' => h') fun w' h' =>
      ⟨_, _, h', hmore⟩) fun w₂ crash₂ h₂ => ?_
    refine ends_singleton ⟨_, _, h₂.rewrite pass.remaining, ?_⟩ fun bytes => ⟨_, _, h₂.torn _ bytes, ?_⟩
    · calc delivered + held .deadLetter + held .pending
        _ ≤ delivered + held .deadLetter + (identities pass.delivered + identities pass.deadRecords +
            identities pass.remaining) := add_le_add (le_refl _) (hread.trans (hkeeps herror))
        _ = delivered + identities pass.delivered + (held .deadLetter + identities pass.deadRecords) +
            identities pass.remaining := by ac_rfl
    · refine hmore.trans ?_
      show _ ≤ delivered + identities pass.delivered + (held .deadLetter + identities pass.deadRecords) +
        held .pending
      gcongr
      exact Multiset.le_add_right _ _

omit [Json.PyFloat F] in
/-- Operations keep the appends there were. -/
theorem allSound_of_runOps {ops : List (Op F)} {crash : Option Crash} (h : AllSound (runOps ops crash w).world) :
    AllSound w := by
  induction ops generalizing w crash with
  | nil => exact h
  | cons op ops ih =>
    cases crash with
    | none => exact allSound_of_exec (ih h)
    | some crash =>
      obtain ⟨operations, bytes⟩ := crash
      cases operations with
      | zero => exact allSound_of_torn h
      | succ n => exact allSound_of_exec (ih h)

omit [Json.PyFloat F] in
/-- No operation accepts a record. -/
theorem accepted_runOps (ops : List (Op F)) (crash : Option Crash) :
    (runOps ops crash w).world.accepted = w.accepted := by
  have hexec : ∀ (w : World F) (op : Op F), (op.exec w).accepted = w.accepted := fun w op => by
    cases op <;> rfl
  have htorn : ∀ (w : World F) (op : Op F) (bytes : Nat), (op.torn w bytes).accepted = w.accepted :=
    fun w op bytes => by cases op <;> rfl
  induction ops generalizing w crash with
  | nil => rfl
  | cons op ops ih =>
    cases crash with
    | none => exact (ih none).trans (hexec w op)
    | some crash =>
      obtain ⟨operations, bytes⟩ := crash
      cases operations with
      | zero => exact htorn w op bytes
      | succ n => exact (ih (some ⟨n, bytes⟩)).trans (hexec w op)

omit [Json.PyFloat F] in
theorem Progress.Ends.world {p : Progress F} {P : World F → Prop} (h : p.Ends P P) : P p.world := by
  cases p with
  | done w crash => exact h
  | died w => exact h

omit [Json.PyFloat F] in
theorem Pass.ops_directory [Json.PyFloat F] (pass : Pass F) (p : String) :
    ∀ op ∈ pass.ops p, op.directory = p := by
  intro op hop
  rw [Pass.ops] at hop
  rcases List.mem_append.mp hop with hop | hop
  · obtain ⟨s, -, rfl⟩ := List.mem_map.mp hop
    rfl
  · cases herror : pass.error with
    | some error =>
      rw [herror] at hop
      cases hop
    | none =>
      rw [herror] at hop
      rcases List.mem_append.mp hop with hop | hop
      · obtain ⟨record, -, rfl⟩ := List.mem_map.mp hop
        rfl
      · rw [List.mem_singleton.mp hop]
        split
        · rfl
        · rfl

/-- The operations of `replay` on one directory keep every project safe. -/
theorem safeIn_pass (py : Python F) (now : Nat) {p : String} {content : ByteArray} {records : List (Fields F)}
    (attempt : Nat → Attempt) (crash : Option Crash) (hdisk : w.disk p .pending = some content)
    (hread : readRecords content = some records) (h : SafeIn w project) :
    SafeIn (runOps ((passRecords py now records attempt).ops p) crash w).world project := by
  obtain ⟨delivered, held, hhas, hle⟩ := h
  have haccepted := accepted_runOps (w := w) ((passRecords py now records attempt).ops p) crash
  by_cases hsound : AllSound w
  · by_cases hp : p = project
    · subst hp
      obtain ⟨-, hfiles⟩ := hhas hsound
      obtain ⟨records', hread', hids⟩ := (hfiles .pending).read
      rw [World.content, hdisk, Option.getD_some, hread] at hread'
      obtain rfl := Option.some.inj hread'
      obtain ⟨delivered', held', hhas', hle'⟩ :=
        (ends_pass py now attempt crash hhas hids).world
      refine ⟨delivered', held', hhas', ?_⟩
      rw [World.acceptedOf, haccepted]
      exact hle.trans hle'
    · refine ⟨delivered, held, (ends_frame (fun op hop => ?_) crash hhas).world, ?_⟩
      · rw [Pass.ops_directory _ _ op hop]
        exact hp
      · rw [World.acceptedOf, haccepted]
        exact hle
  · refine ⟨delivered, held, fun h' => absurd (allSound_of_runOps h') hsound, ?_⟩
    rw [World.acceptedOf, haccepted]
    exact hle

theorem safeIn_replayDirs {py : Python F} {now : Nat} (projects : List String) (attempt : Nat → Attempt)
    (counts : Nat × Nat × Nat) (crash : Option Crash) (h : SafeIn w project) :
    SafeIn (replayDirs py now projects attempt counts crash w).2 project := by
  induction projects generalizing w attempt counts crash with
  | nil => exact h
  | cons p projects ih =>
    rw [replayDirs]
    split
    · exact ih attempt counts crash h
    · next content hdisk =>
      split
      · exact h
      · next records hread =>
        have hpass := safeIn_pass py now attempt crash hdisk hread h
        simp only
        split
        · next w' hdied =>
          rw [hdied] at hpass
          exact hpass
        · next w' crash' hdone =>
          rw [hdone] at hpass
          split
          · exact hpass
          · exact ih _ _ _ hpass

theorem safeIn_replay {py : Python F} {now : Nat} (projectId : Option String) (listing : List String)
    (attempt : Nat → Attempt) (crash : Option Crash) (h : SafeIn w project) :
    SafeIn (replay py projectId listing now attempt crash w).2 project := by
  rw [replay.eq_def]
  split
  · exact safeIn_replayDirs _ _ _ _ h
  · split
    · exact safeIn_replayDirs _ _ _ _ h
    · split
      · exact safeIn_replayDirs _ _ _ _ h
      · exact h

omit [Json.PyFloat F] in
theorem acceptedOf_accept (w : World F) (p : String) (record : Fields F) (q : String) :
    ({ w with accepted := w.accepted ++ [(p, record)] } : World F).acceptedOf q =
      w.acceptedOf q ++ if p = q then [record] else [] := by
  rw [World.acceptedOf]
  simp only [List.filter_append, List.map_append]
  split
  · next h => rw [List.filter_cons_of_pos (by simpa using h)]; rfl
  · next h => rw [List.filter_cons_of_neg (by simpa using h)]; rfl

/-- The append of `enqueue`, with the record accepted if it was complete. -/
theorem ends_enqueue (p : String) (record : Fields F) (crash : Option Crash) (h : SafeIn w project) :
    (runOps [.append p .pending (recordLine record)] crash w).Ends
      (fun w' => SafeIn { w' with accepted := w'.accepted ++ [(p, record)] } project)
      (fun w' => SafeIn w' project) := by
  obtain ⟨delivered, held, hhas, hle⟩ := h
  refine ends_singleton ?_ fun bytes => ⟨delivered, held, hhas.torn _ bytes, hle⟩
  by_cases hp : p = project
  · subst hp
    refine ⟨delivered, _, hhas.append .pending record, ?_⟩
    rw [acceptedOf_accept, if_pos rfl, identities_append]
    exact (add_le_add hle (le_refl _)).trans (le_of_eq (add_assoc _ _ _))
  · refine ⟨delivered, held, hhas.frame hp, ?_⟩
    rw [acceptedOf_accept, if_neg hp, List.append_nil]
    exact hle

/-- What `enqueue` does, once its arguments are valid. -/
theorem enqueue_cases (py : Python F) (projectId : String) (payload : Fields F) (reason : String) (now : Nat)
    (crash : Option Crash) (w : World F) : (enqueue py projectId payload reason now crash w).2 = w ∨
      ∃ eventKey, isProjectId projectId = true ∧ payload.lookup "event_key" = some (.str eventKey) ∧
        enqueue py projectId payload reason now crash w =
          match runOps [.append projectId .pending
              (recordLine (newRecord py projectId eventKey payload reason now))] crash w with
          | .done w' _ => (.accepted, { w' with
              accepted := w'.accepted ++ [(projectId, newRecord py projectId eventKey payload reason now)] })
          | .died w' => (.died, w') := by
  rw [enqueue]
  split
  · next hproject =>
    split
    · next eventKey hkey =>
      split
      · exact Or.inl rfl
      · exact Or.inr ⟨eventKey, hproject, hkey, rfl⟩
    · exact Or.inl rfl
  · exact Or.inl rfl

theorem safeIn_enqueue {py : Python F} (projectId : String) (payload : Fields F) (reason : String) (now : Nat)
    (crash : Option Crash) (h : SafeIn w project) :
    SafeIn (enqueue py projectId payload reason now crash w).2 project := by
  rcases enqueue_cases py projectId payload reason now crash w with hsame | ⟨eventKey, -, -, hrun⟩
  · rw [hsame]
    exact h
  · have hends := ends_enqueue projectId (newRecord py projectId eventKey payload reason now) crash h
    rw [hrun]
    split
    · next w' crash' hdone =>
      rw [hdone] at hends
      exact hends
    · next w' hdied =>
      rw [hdied] at hends
      exact hends

/-! ## Runs -/

/-- **Every call keeps every project safe**, wherever the process dies in it. -/
theorem safeIn_step (py : Python F) (s : Step F) (h : SafeIn w project) : SafeIn (step py w s) project := by
  rw [step]
  split
  · exact safeIn_enqueue _ _ _ _ _ h
  · exact safeIn_replay _ _ _ _ h

theorem safeIn_run (py : Python F) (steps : List (Step F)) (project : String) : SafeIn (run py steps) project := by
  induction steps using List.reverseRecOn with
  | nil =>
    refine ⟨0, fun _ => 0, fun _ => ⟨Multiset.zero_le _, fun file => holds_empty⟩, le_of_eq rfl⟩
  | append_singleton steps s ih =>
    rw [run, List.foldl_append]
    exact safeIn_step py s ih

theorem accepted_replayDirs (py : Python F) (now : Nat) (projects : List String) (attempt : Nat → Attempt)
    (counts : Nat × Nat × Nat) (crash : Option Crash) (w : World F) :
    (replayDirs py now projects attempt counts crash w).2.accepted = w.accepted := by
  induction projects generalizing w attempt counts crash with
  | nil => rfl
  | cons p projects ih =>
    rw [replayDirs]
    split
    · exact ih attempt counts crash w
    · split
      · rfl
      · next records hread =>
        have hops := accepted_runOps (w := w) ((passRecords py now records attempt).ops p) crash
        simp only
        split
        · next w' hdied =>
          rw [hdied] at hops
          exact hops
        · next w' crash' hdone =>
          rw [hdone] at hops
          split
          · exact hops
          · exact (ih _ _ _ _).trans hops

theorem accepted_replay (py : Python F) (projectId : Option String) (listing : List String) (now : Nat)
    (attempt : Nat → Attempt) (crash : Option Crash) (w : World F) :
    (replay py projectId listing now attempt crash w).2.accepted = w.accepted := by
  rw [replay.eq_def]
  split
  · exact accepted_replayDirs _ _ _ _ _ _ _
  · split
    · exact accepted_replayDirs _ _ _ _ _ _ _
    · split
      · exact accepted_replayDirs _ _ _ _ _ _ _
      · rfl

/-- The records that plain calls accept are storable. -/
theorem accepted_storable_step {py : Python F} {s : Step F} (hplain : s.call.Plain py)
    (h : ∀ a ∈ w.accepted, isStorable a.2 = true) : ∀ a ∈ (step py w s).accepted, isStorable a.2 = true := by
  obtain ⟨call, crash⟩ := s
  cases call with
  | replay projectId listing now attempt =>
    have hsame := accepted_replay py projectId listing now attempt crash w
    rw [step]
    rw [hsame]
    exact h
  | enqueue projectId payload reason now =>
    rw [step]
    simp only
    rcases enqueue_cases py projectId payload.fields reason now crash w with hsame | ⟨eventKey, -, hkey, hrun⟩
    · rw [hsame]
      exact h
    · have hops := accepted_runOps (w := w) [.append projectId .pending
        (recordLine (newRecord py projectId eventKey payload.fields reason now))] crash
      rw [hrun]
      split
      · next w' crash' hdone =>
        rw [hdone] at hops
        intro a ha
        rcases List.mem_append.mp ha with ha | ha
        · exact h a (hops ▸ ha)
        · rw [List.mem_singleton.mp ha]
          exact isStorable_newRecord payload.unique (hplain eventKey hkey)
      · next w' hdied =>
        rw [hdied] at hops
        intro a ha
        exact h a (hops ▸ ha)

theorem accepted_storable (py : Python F) (steps : List (Step F)) (hplain : ∀ s ∈ steps, s.call.Plain py) :
    ∀ a ∈ (run py steps).accepted, isStorable a.2 = true := by
  induction steps using List.reverseRecOn with
  | nil => exact fun a ha => nomatch ha
  | append_singleton steps s ih =>
    rw [run, List.foldl_append]
    exact accepted_storable_step (hplain s (List.mem_append_right _ List.mem_cons_self))
      (ih fun s' hs' => hplain s' (List.mem_append_left _ hs'))

omit [Json.PyFloat F] in
theorem identities_of_storable {records : List (Fields F)} (h : ∀ r ∈ records, isStorable r = true) :
    identities records = (records.map identity : List (Fields F)) := by
  rw [identities, List.filter_eq_self.mpr h]

omit [Json.PyFloat F] in
theorem identities_le (records : List (Fields F)) :
    identities records ≤ (records.map identity : List (Fields F)) :=
  Multiset.coe_le.mpr (List.filter_sublist.map identity).subperm

/-- **No accepted record is lost**, whatever calls are made and wherever the
process dies in them, as long as the stored strings are plain, no append begins
inside a line and no torn one leaves part of a character: each is delivered or
read back from one of the two files. -/
theorem accepted_survive_crashes (py : Python F) (steps : List (Step F))
    (hplain : ∀ s ∈ steps, s.call.Plain py) (hsound : ∀ a ∈ (run py steps).appends, a.Sound) (project : String) :
    ∃ pending dead,
      readRecords ((run py steps).content project .pending) = some pending ∧
      readRecords ((run py steps).content project .deadLetter) = some dead ∧
      (((run py steps).acceptedOf project).map identity).Subperm
        (((run py steps).deliveredOf project ++ dead ++ pending).map identity) := by
  obtain ⟨delivered, held, hhas, hle⟩ := safeIn_run py steps project
  obtain ⟨hdelivered, hfiles⟩ := hhas hsound
  obtain ⟨pending, hpending, hpendingIds⟩ := (hfiles .pending).read
  obtain ⟨dead, hdead, hdeadIds⟩ := (hfiles .deadLetter).read
  refine ⟨pending, dead, hpending, hdead, Multiset.coe_le.mp ?_⟩
  have hstorable : ∀ r ∈ (run py steps).acceptedOf project, isStorable r = true := by
    intro r hr
    obtain ⟨a, ha, rfl⟩ := List.mem_map.mp hr
    exact accepted_storable py steps hplain a (List.mem_of_mem_filter ha)
  calc (((run py steps).acceptedOf project).map identity : Multiset (Fields F))
    _ = identities ((run py steps).acceptedOf project) := (identities_of_storable hstorable).symm
    _ ≤ identities ((run py steps).deliveredOf project) + identities dead + identities pending :=
        hle.trans (add_le_add (add_le_add hdelivered hdeadIds) hpendingIds)
    _ = identities ((run py steps).deliveredOf project ++ dead ++ pending) := by
        rw [identities_append, identities_append]
    _ ≤ _ := identities_le _

/-! ## After a torn line -/

/-- A Python that is asked for no time and no number. -/
def plainPython : Python Empty where
  table := Hooks.asciiTable
  fromisoformat _ := none
  intOfText _ := .error (.value "")
  intOfFloat x := nomatch x

/-- `enqueue` of a short event. -/
def enqueueEvent (eventKey : String) : Call Empty :=
  .enqueue "demo" ⟨[("event_key", .str eventKey)], by simp [Json.unique, Json.uniqueFields]⟩ "" 0

theorem enqueueEvent_plain {eventKey : String}
    (h : isPlain (.obj (newRecord plainPython "demo" eventKey [("event_key", .str eventKey)] "" 0)) = true) :
    (enqueueEvent eventKey).Plain plainPython := by
  intro key hkey
  obtain rfl : eventKey = key := by
    rw [List.lookup_cons, beq_self_eq_true] at hkey
    exact Json.str.inj (Option.some.inj hkey)
  exact h

/-- The process dies in the append of an event after so many bytes; then another
event is added. -/
def tornRun (bytes : Nat) : List (Step Empty) :=
  [⟨enqueueEvent "a", some ⟨0, bytes⟩⟩, ⟨enqueueEvent "b", none⟩]

/-- The process dies before the first byte; the next event is there. -/
theorem accepted_survive_empty_append : ∃ pending dead,
    readRecords ((run plainPython (tornRun 0)).content "demo" .pending) = some pending ∧
    readRecords ((run plainPython (tornRun 0)).content "demo" .deadLetter) = some dead ∧
    (((run plainPython (tornRun 0)).acceptedOf "demo").map identity).Subperm
      (((run plainPython (tornRun 0)).deliveredOf "demo" ++ dead ++ pending).map identity) := by
  refine accepted_survive_crashes plainPython _ ?_ ?_ "demo"
  · intro s hs
    rcases List.mem_cons.mp hs with rfl | hs
    · exact enqueueEvent_plain (by decide)
    · rw [List.mem_singleton.mp hs]
      exact enqueueEvent_plain (by decide)
  · have hall : ∀ a ∈ (run plainPython (tornRun 0)).appends,
        a.before = ByteArray.empty ∧ (a.torn = none ∨ a.torn = some 0) := by decide +kernel
    intro a ha
    obtain ⟨hbefore, htorn | htorn⟩ := hall a ha
    · rw [Append.Sound, htorn]
      exact ⟨[], hbefore, Or.inl rfl⟩
    · rw [Append.Sound, htorn]
      simp only [ByteArray.extract_same]
      exact String.isValidUTF8 ""

/-- **A record accepted after a torn append is lost**: it continues the line of
which one character was left. -/
theorem enqueue_after_torn_append_lost : ¬ ∀ (py : Python Empty) (steps : List (Step Empty)) (project : String),
    ∃ pending dead,
      readRecords ((run py steps).content project .pending) = some pending ∧
      readRecords ((run py steps).content project .deadLetter) = some dead ∧
      (((run py steps).acceptedOf project).map identity).Subperm
        (((run py steps).deliveredOf project ++ dead ++ pending).map identity) := by
  intro h
  obtain ⟨pending, dead, hpending, hdead, hsub⟩ := h plainPython (tornRun 1) "demo"
  have hlost : (fun w : World Empty =>
      (readRecords (F := Empty) (w.content "demo" .pending)).map List.length = some 0 ∧
      (readRecords (F := Empty) (w.content "demo" .deadLetter)).map List.length = some 0 ∧
      (w.acceptedOf "demo").length = 1 ∧ (w.deliveredOf "demo").length = 0)
        (run plainPython (tornRun 1)) := by decide +kernel
  obtain ⟨hpending0, hdead0, haccepted, hdelivered⟩ := hlost
  rw [hpending, Option.map_some, Option.some.injEq] at hpending0
  rw [hdead, Option.map_some, Option.some.injEq] at hdead0
  have hle := hsub.length_le
  simp only [List.length_map, List.length_append] at hle
  omega

end CodexMemory.Outbox
