import CodexMemory.Outbox.Crash

/-!
# No loss in the local outbox

Runs in which no process dies.  Both files of every project are then whole lines
of storable records, and a record is in one place: delivered, a dead letter or
pending.

* `passRecords_sorts`: the loop of `replay` puts every record into one place;
* `tidy_step`: every call keeps the files tidy;
* `accepted_in_one_place`: so every accepted record is in exactly one place, and
  only payloads of accepted records are sent;
* `lineBreak_event_lost`: a record with U+2028 is lost.
-/

namespace CodexMemory.Outbox

variable {F : Type}

/-! ## One pass of `replay` -/

/-- A record as the outbox keeps it: storable, with a number of attempts. -/
def Kept (record : Fields F) : Prop :=
  isStorable record = true ∧ ∃ n, record.lookup "attempts" = some (.int n)

/-- No retry after this time overflows. -/
def InTime (now : Nat) : Prop := now + 3600 * 1000000 ≤ maxTime

theorem retryDelaySeconds_le (attempts : Int) : retryDelaySeconds attempts ≤ 3600 := by
  rw [retryDelaySeconds]
  omega

theorem kept_newRecord {py : Python F} {projectId eventKey reason : String} {payload : Fields F} {now : Nat}
    (hunique : Json.unique (.obj payload) = true)
    (hplain : isPlain (.obj (newRecord py projectId eventKey payload reason now)) = true) :
    Kept (newRecord py projectId eventKey payload reason now) :=
  ⟨isStorable_newRecord hunique hplain, 0, rfl⟩

theorem kept_deadLetter {record : Fields F} (h : Kept record) (now : Nat) : Kept (deadLetter record now) := by
  obtain ⟨hstorable, n, hn⟩ := h
  refine ⟨isStorable_deadLetter hstorable now, n, ?_⟩
  rw [deadLetter, lookup_setField_of_ne (by decide), lookup_setField_of_ne (by decide)]
  exact hn

/-- A kept record has a retry, and it is kept. -/
theorem exists_retryRecord (py : Python F) {record : Fields F} (h : Kept record) {now : Nat} (hnow : InTime now) :
    ∃ retry, retryRecord py record now = .ok retry ∧ Kept retry := by
  obtain ⟨hstorable, n, hn⟩ := h
  have hattempts : attemptsOf py record = .ok n := by rw [attemptsOf, hn]
  have hadd : ∃ next, addSeconds now (retryDelaySeconds (n + 1)) = some next := by
    have hdelay := retryDelaySeconds_le (n + 1)
    have hfits : now + 1000000 * retryDelaySeconds (n + 1) ≤ maxTime := by
      refine le_trans ?_ hnow
      omega
    exact ⟨now + 1000000 * retryDelaySeconds (n + 1), by rw [addSeconds, if_pos hfits]⟩
  obtain ⟨next, hnext⟩ := hadd
  have hretry : ∃ retry, retryRecord py record now = .ok retry := by
    rw [retryRecord, hattempts]
    simp only [hnext]
    exact ⟨_, rfl⟩
  obtain ⟨retry, hretry⟩ := hretry
  refine ⟨retry, hretry, isStorable_retryRecord hretry hstorable, n + 1, ?_⟩
  obtain ⟨attempts, next', hattempts', -, rfl⟩ := retryRecord_cases hretry
  rw [hattempts, Except.ok.injEq] at hattempts'
  rw [lookup_setField_of_ne (by decide), lookup_setField_of_ne (by decide), lookup_setField_self, hattempts']

theorem identities_eq_of_storable {r r' : Fields F} (hidentity : identity r' = identity r)
    (hr : isStorable r = true) (hr' : isStorable r' = true) : identities [r'] = identities [r] := by
  simp [identities, hr, hr', hidentity]

/-- What the loop leaves behind if no error left it: every record in one place. -/
structure Pass.Sorts (pass : Pass F) (records : List (Fields F)) : Prop where
  no_error : pass.error = none
  one_place : identities records =
    identities pass.delivered + identities pass.deadRecords + identities pass.remaining
  dead_kept : ∀ r ∈ pass.deadRecords, Kept r
  remaining_kept : ∀ r ∈ pass.remaining, Kept r
  sent : ∀ s ∈ pass.sends, s.1 ∈ records

/-- **The loop puts every record into one place.** -/
theorem passRecords_sorts (py : Python F) {now : Nat} (hnow : InTime now) {records : List (Fields F)}
    (hrecords : ∀ r ∈ records, Kept r) (attempt : Nat → Attempt) :
    (passRecords py now records attempt).Sorts records := by
  induction records generalizing attempt with
  | nil => exact ⟨rfl, rfl, fun r hr => (nomatch hr), fun r hr => (nomatch hr), fun s hs => (nomatch hs)⟩
  | cons record records ih =>
    obtain ⟨attempt', hpasses⟩ := passRecords_cons py now record records attempt
    have hrest := ih (fun r hr => hrecords r (List.mem_cons_of_mem _ hr)) attempt'
    have hrecord := hrecords record List.mem_cons_self
    generalize passRecords py now records attempt' = pass at hpasses hrest
    generalize passRecords py now (record :: records) attempt = pass' at hpasses
    obtain ⟨herror, hplace, hdead, hremaining, hsent⟩ := hrest
    have hsends : ∀ outcome, ∀ s ∈ (record, outcome) :: pass.sends, s.1 ∈ record :: records := by
      intro outcome s hs
      rcases List.mem_cons.mp hs with rfl | hs
      · exact List.mem_cons_self
      · exact List.mem_cons_of_mem _ (hsent s hs)
    cases hpasses with
    | kept =>
      refine ⟨herror, ?_, hdead, List.forall_mem_cons.mpr ⟨hrecord, hremaining⟩,
        fun s hs => List.mem_cons_of_mem _ (hsent s hs)⟩
      show _ = identities pass.delivered + identities pass.deadRecords + identities (record :: pass.remaining)
      rw [identities_cons, identities_cons record pass.remaining, hplace]
      ac_rfl
    | delivered =>
      refine ⟨herror, ?_, hdead, hremaining, hsends .returned⟩
      rw [Pass.delivered_cons_returned, identities_cons, identities_cons record pass.delivered, hplace]
      ac_rfl
    | dead outcome time failed =>
      have hletter := kept_deadLetter hrecord time
      refine ⟨herror, ?_, List.forall_mem_cons.mpr ⟨hletter, hdead⟩, hremaining, hsends outcome⟩
      have hsame := identities_eq_of_storable (identity_deadLetter record time) hrecord.1 hletter.1
      rw [Pass.delivered_cons_failed pass failed]
      show _ = identities pass.delivered + identities (deadLetter record time :: pass.deadRecords) +
        identities pass.remaining
      rw [identities_cons, identities_cons (deadLetter record time), hplace, hsame]
      ac_rfl
    | retried outcome retry failed made =>
      obtain ⟨retry', hretry, hkept⟩ := exists_retryRecord py hrecord hnow
      obtain rfl := Except.ok.inj (hretry.symm.trans made)
      refine ⟨herror, ?_, hdead, List.forall_mem_cons.mpr ⟨hkept, hremaining⟩, hsends outcome⟩
      have hsame := identities_eq_of_storable (identity_retryRecord made) hrecord.1 hkept.1
      rw [Pass.delivered_cons_failed pass failed]
      show _ = identities pass.delivered + identities pass.deadRecords + identities (retry' :: pass.remaining)
      rw [identities_cons, identities_cons retry', hplace, hsame]
      ac_rfl
    | raised outcome error failed made =>
      obtain ⟨retry, hretry, -⟩ := exists_retryRecord py hrecord hnow
      rw [hretry] at made
      cases made

/-! ## The operations of a pass -/

variable [Json.PyFloat F] {w : World F}

omit [Json.PyFloat F] in
theorem runOps_none (ops : List (Op F)) (w : World F) :
    runOps ops none w = .done (ops.foldl Op.exec w) none := by
  induction ops generalizing w with
  | nil => rfl
  | cons op ops ih => exact ih (op.exec w)

omit [Json.PyFloat F] in
theorem foldl_sends (p : String) (sends : List (Fields F × Outcome)) (w : World F) :
    (sends.map fun s => Op.send p s.1 s.2).foldl Op.exec w =
      { w with sent := w.sent ++ sends.map fun s => (p, s.1, s.2) } := by
  induction sends generalizing w with
  | nil => simp
  | cons s sends ih =>
    rw [List.map_cons, List.foldl_cons, ih]
    simp [Op.exec]

/-- What a pass makes of a file. -/
def Pass.fileAfter (pass : Pass F) (w : World F) (p : String) : File → ByteArray
  | .pending => encode (pass.remaining.flatMap recordLine)
  | .deadLetter => w.content p .deadLetter ++ encode (pass.deadRecords.flatMap recordLine)

/-- Records appended one by one are appended lines. -/
theorem foldl_appends (p : String) (file : File) (records : List (Fields F)) (w : World F) :
    ∃ w', (records.map fun record => Op.append p file (recordLine record)).foldl Op.exec w = w' ∧
      w'.accepted = w.accepted ∧ w'.sent = w.sent ∧
      ∀ q f, w'.content q f = if q = p ∧ f = file
        then w.content p file ++ encode (records.flatMap recordLine) else w.content q f := by
  induction records generalizing w with
  | nil =>
    refine ⟨w, rfl, rfl, rfl, fun q f => ?_⟩
    split
    · next h => rw [h.1, h.2, List.flatMap_nil]; exact (ByteArray.append_empty).symm
    · rfl
  | cons record records ih =>
    obtain ⟨w', hw', haccepted, hsent, hcontent⟩ := ih (Op.exec w (.append p file (recordLine record)))
    refine ⟨w', hw', haccepted, hsent, fun q f => ?_⟩
    have hwritten : ∀ q f, (Op.exec w (.append p file (recordLine record))).content q f =
        if q = p ∧ f = file then w.content p file ++ encode (recordLine record)
        else w.content q f := content_write w p file _
    rw [hcontent, hwritten, hwritten]
    split
    · rw [if_pos ⟨rfl, rfl⟩, List.flatMap_cons, encode_append, ByteArray.append_assoc]
    · rfl

/-- **The operations of a pass without an error**, when the process lives on. -/
theorem runOps_pass {pass : Pass F} (herror : pass.error = none) (p : String) (w : World F) :
    ∃ w', runOps (pass.ops p) none w = .done w' none ∧ w'.accepted = w.accepted ∧
      w'.sent = w.sent ++ pass.sends.map (fun s => (p, s.1, s.2)) ∧
      ∀ q f, w'.content q f = if q = p then pass.fileAfter w p f else w.content q f := by
  obtain ⟨w₂, hw₂, haccepted, hsent, hcontent⟩ := foldl_appends p .deadLetter pass.deadRecords
    { w with sent := w.sent ++ pass.sends.map fun s => (p, s.1, s.2) }
  refine ⟨_, runOps_none _ _, ?_⟩
  rw [Pass.ops, herror]
  simp only [List.foldl_append, List.foldl_cons, List.foldl_nil]
  rw [foldl_sends, hw₂]
  have hlast : ∃ content, Op.exec w₂ (if pass.remaining = [] then .unlink p
      else .replace p (pass.remaining.flatMap recordLine)) = w₂.write p .pending content ∧
      content.getD ByteArray.empty = encode (pass.remaining.flatMap recordLine) := by
    split
    · next h => exact ⟨none, rfl, by rw [h]; rfl⟩
    · exact ⟨some _, rfl, rfl⟩
  obtain ⟨content, hwrite, hgetD⟩ := hlast
  rw [hwrite]
  refine ⟨haccepted, hsent, fun q f => ?_⟩
  rw [content_write, hgetD, hcontent]
  by_cases hq : q = p
  · cases f with
    | pending => simp [hq, Pass.fileAfter]
    | deadLetter =>
      simp [hq, Pass.fileAfter]
      rfl
  · simp [hq]
    rfl

/-! ## Tidy files -/

/-- The files of a project are the lines of kept records, which are together with
the delivered ones the accepted records; only accepted records were sent. -/
structure Places (w : World F) (project : String) (pending dead : List (Fields F)) : Prop where
  pending_file : w.content project .pending = encode (pending.flatMap recordLine)
  dead_file : w.content project .deadLetter = encode (dead.flatMap recordLine)
  pending_kept : ∀ r ∈ pending, Kept r
  dead_kept : ∀ r ∈ dead, Kept r
  accepted_storable : ∀ r ∈ w.acceptedOf project, isStorable r = true
  sent : ∀ s ∈ w.sent, s.1 = project → isStorable s.2.1 = true ∧
    ∃ r ∈ w.acceptedOf project, identity r = identity s.2.1
  one_place : identities (w.acceptedOf project) =
    identities (w.deliveredOf project) + identities dead + identities pending

def Tidy (w : World F) (project : String) : Prop := ∃ pending dead, Places w project pending dead

variable {project : String}

omit [Json.PyFloat F] in
theorem mem_identities {records : List (Fields F)} {id : Fields F} :
    id ∈ identities records ↔ ∃ r ∈ records, isStorable r = true ∧ identity r = id := by
  simp [identities, and_assoc]

/-- A pending record is an accepted one. -/
theorem Places.pending_accepted {pending dead : List (Fields F)} (h : Places w project pending dead)
    {r : Fields F} (hr : r ∈ pending) : ∃ a ∈ w.acceptedOf project, identity a = identity r := by
  have hmem : identity r ∈ identities (w.acceptedOf project) := by
    rw [h.one_place]
    exact Multiset.mem_add.mpr (Or.inr (mem_identities.mpr ⟨r, hr, (h.pending_kept r hr).1, rfl⟩))
  obtain ⟨a, ha, -, hid⟩ := mem_identities.mp hmem
  exact ⟨a, ha, hid⟩

/-- What is kept of a project by steps on others. -/
theorem Places.frame {pending dead : List (Fields F)} (h : Places w project pending dead) {w' : World F}
    (hcontent : ∀ f, w'.content project f = w.content project f)
    (haccepted : w'.acceptedOf project = w.acceptedOf project)
    (hsent : w'.sent.filter (fun s => decide (s.1 = project)) = w.sent.filter fun s => decide (s.1 = project)) :
    Places w' project pending dead := by
  have hdelivered : w'.deliveredOf project = w.deliveredOf project := by
    have hsplit : ∀ sent : List (String × Fields F × Outcome),
        sent.filter (fun s => decide (s.1 = project ∧ s.2.2 = .returned)) =
          (sent.filter fun s => decide (s.1 = project)).filter fun s => decide (s.2.2 = .returned) := by
      intro sent
      rw [List.filter_filter]
      congr 1
      funext s
      simp [Bool.and_comm]
    rw [World.deliveredOf, World.deliveredOf, hsplit, hsplit, hsent]
  refine ⟨(hcontent _).trans h.pending_file, (hcontent _).trans h.dead_file, h.pending_kept, h.dead_kept, ?_, ?_, ?_⟩
  · rw [haccepted]
    exact h.accepted_storable
  · intro s hs hproject
    have hmem : s ∈ w'.sent.filter fun s => decide (s.1 = project) :=
      List.mem_filter.mpr ⟨hs, decide_eq_true hproject⟩
    rw [hsent] at hmem
    rw [haccepted]
    exact h.sent s (List.mem_of_mem_filter hmem) hproject
  · rw [haccepted, hdelivered]
    exact h.one_place

omit [Json.PyFloat F] in
theorem deliveredOf_append_sends (w w' : World F) (p : String) (sends : List (Fields F × Outcome))
    (h : w'.sent = w.sent ++ sends.map fun s => (p, s.1, s.2)) :
    w'.deliveredOf p = w.deliveredOf p ++ (sends.filter fun s => decide (s.2 = .returned)).map Prod.fst := by
  rw [World.deliveredOf, h, List.filter_append, List.map_append, List.filter_map, List.map_map]
  simp [World.deliveredOf, Function.comp_def]

/-- **A pass over the records of a directory keeps every project tidy.** -/
theorem tidy_pass (py : Python F) {now : Nat} (hnow : InTime now) (attempt : Nat → Attempt) {p : String}
    {content : ByteArray} {records : List (Fields F)} (hdisk : w.disk p .pending = some content)
    (hread : readRecords content = some records) (hall : ∀ project, Tidy w project) :
    ∃ w', runOps ((passRecords py now records attempt).ops p) none w = .done w' none ∧
      (passRecords py now records attempt).error = none ∧ ∀ project, Tidy w' project := by
  obtain ⟨pending, dead, hplaces⟩ := hall p
  obtain rfl : records = pending := by
    have hcontent : content = encode (pending.flatMap recordLine) := by
      rw [← hplaces.pending_file, World.content, hdisk, Option.getD_some]
    rw [hcontent, readRecords_lines fun r hr => (hplaces.pending_kept r hr).1] at hread
    exact (Option.some.inj hread).symm
  have hsorts := passRecords_sorts py hnow hplaces.pending_kept attempt
  generalize passRecords py now records attempt = pass at hsorts
  obtain ⟨w', hrun, haccepted, hsent, hfiles⟩ := runOps_pass hsorts.no_error p w
  have hacceptedOf : ∀ project, w'.acceptedOf project = w.acceptedOf project := fun project => by
    rw [World.acceptedOf, haccepted, World.acceptedOf]
  refine ⟨w', hrun, hsorts.no_error, fun project => ?_⟩
  by_cases hp : p = project
  · subst hp
    refine ⟨pass.remaining, dead ++ pass.deadRecords, ?_, ?_, hsorts.remaining_kept, ?_, ?_, ?_, ?_⟩
    · rw [hfiles, if_pos rfl, Pass.fileAfter]
    · rw [hfiles, if_pos rfl, Pass.fileAfter, hplaces.dead_file, List.flatMap_append, encode_append]
    · exact List.forall_mem_append.mpr ⟨hplaces.dead_kept, hsorts.dead_kept⟩
    · rw [hacceptedOf]
      exact hplaces.accepted_storable
    · intro s hs hproject
      rw [hacceptedOf]
      rw [hsent] at hs
      rcases List.mem_append.mp hs with hs | hs
      · exact hplaces.sent s hs hproject
      · obtain ⟨t, ht, rfl⟩ := List.mem_map.mp hs
        exact ⟨(hplaces.pending_kept t.1 (hsorts.sent t ht)).1, hplaces.pending_accepted (hsorts.sent t ht)⟩
    · rw [hacceptedOf, deliveredOf_append_sends w w' p pass.sends hsent, identities_append, identities_append,
        hplaces.one_place, hsorts.one_place, Pass.delivered]
      ac_rfl
  · obtain ⟨pending', dead', hplaces'⟩ := hall project
    refine ⟨pending', dead', hplaces'.frame (fun f => ?_) (hacceptedOf project) ?_⟩
    · rw [hfiles, if_neg (Ne.symm hp)]
    · rw [hsent, List.filter_append, List.filter_map]
      simp [Function.comp_def, hp]

/-! ## Calls -/

theorem tidy_replayDirs (py : Python F) {now : Nat} (hnow : InTime now) (projects : List String)
    (attempt : Nat → Attempt) (counts : Nat × Nat × Nat) (hall : ∀ project, Tidy w project) :
    ∀ project, Tidy (replayDirs py now projects attempt counts none w).2 project := by
  induction projects generalizing w attempt counts with
  | nil => exact hall
  | cons p projects ih =>
    rw [replayDirs]
    split
    · exact ih attempt counts hall
    · next content hdisk =>
      split
      · exact hall
      · next records hread =>
        obtain ⟨w', hrun, herror, hall'⟩ := tidy_pass py hnow attempt hdisk hread hall
        simp only [hrun, herror]
        exact ih _ _ hall'

theorem tidy_replay (py : Python F) {now : Nat} (hnow : InTime now) (projectId : Option String)
    (listing : List String) (attempt : Nat → Attempt) (hall : ∀ project, Tidy w project) :
    ∀ project, Tidy (replay py projectId listing now attempt none w).2 project := by
  rw [replay.eq_def]
  split
  · exact tidy_replayDirs py hnow _ _ _ hall
  · split
    · exact tidy_replayDirs py hnow _ _ _ hall
    · split
      · exact tidy_replayDirs py hnow _ _ _ hall
      · exact hall

/-- An accepted record is appended to the pending file. -/
theorem tidy_accept (p : String) {record : Fields F} (hrecord : Kept record) (hall : ∀ project, Tidy w project) :
    ∀ project, Tidy { Op.exec w (.append p .pending (recordLine record)) with
      accepted := w.accepted ++ [(p, record)] } project := by
  intro project
  obtain ⟨pending, dead, hplaces⟩ := hall project
  have hcontent : ∀ f, World.content { Op.exec w (.append p .pending (recordLine record)) with
      accepted := w.accepted ++ [(p, record)] } project f = if project = p ∧ f = .pending
        then w.content p .pending ++ encode (recordLine record) else w.content project f :=
    content_write w p .pending _ project
  have haccepted := acceptedOf_accept w p record project
  by_cases hp : p = project
  · subst hp
    rw [if_pos rfl] at haccepted
    refine ⟨pending ++ [record], dead, ?_, ?_, ?_, hplaces.dead_kept, ?_, ?_, ?_⟩
    · rw [hcontent, if_pos ⟨rfl, rfl⟩, hplaces.pending_file, ← encode_append, List.flatMap_append,
        List.flatMap_singleton]
    · rw [hcontent, if_neg (fun h => by cases h.2), hplaces.dead_file]
    · exact List.forall_mem_append.mpr ⟨hplaces.pending_kept, List.forall_mem_singleton.mpr hrecord⟩
    · intro r hr
      rcases List.mem_append.mp (haccepted ▸ hr) with hr | hr
      · exact hplaces.accepted_storable r hr
      · rw [List.mem_singleton.mp hr]
        exact hrecord.1
    · intro s hs hproject
      obtain ⟨hstorable, r, hr, hid⟩ := hplaces.sent s hs hproject
      exact ⟨hstorable, r, haccepted ▸ List.mem_append_left _ hr, hid⟩
    · rw [identities_append pending]
      refine (congrArg identities haccepted).trans ?_
      calc identities (w.acceptedOf p ++ [record])
        _ = identities (w.deliveredOf p) + identities dead + identities pending + identities [record] := by
            rw [identities_append, hplaces.one_place]
        _ = _ := add_assoc _ _ _
  · rw [if_neg hp, List.append_nil] at haccepted
    refine ⟨pending, dead, hplaces.frame (fun f => ?_) haccepted rfl⟩
    rw [hcontent, if_neg fun h => hp h.1.symm]

theorem tidy_enqueue {py : Python F} {projectId : String} {payload : Payload F} {reason : String} {now : Nat}
    (hplain : (Call.enqueue projectId payload reason now).Plain py) (hall : ∀ project, Tidy w project) :
    ∀ project, Tidy (enqueue py projectId payload.fields reason now none w).2 project := by
  rcases enqueue_cases py projectId payload.fields reason now none w with hsame | ⟨eventKey, -, hkey, hrun⟩
  · rw [hsame]
    exact hall
  · rw [hrun]
    exact tidy_accept projectId (kept_newRecord payload.unique (hplain eventKey hkey)) hall

/-- A replay is made before the last hour of the year 9999. -/
def Call.InTime : Call F → Prop
  | .enqueue _ _ _ _ => True
  | .replay _ _ now _ => Outbox.InTime now

/-- **Every call keeps every project tidy.** -/
theorem tidy_step {py : Python F} {call : Call F} (hplain : call.Plain py) (htime : call.InTime)
    (hall : ∀ project, Tidy w project) : ∀ project, Tidy (step py w ⟨call, none⟩) project := by
  cases call with
  | enqueue projectId payload reason now => exact tidy_enqueue hplain hall
  | replay projectId listing now attempt => exact tidy_replay py htime projectId listing attempt hall

/-! ## Runs -/

/-- The world after calls in none of which the process dies. -/
def runCalls (py : Python F) (calls : List (Call F)) : World F := run py (calls.map fun call => ⟨call, none⟩)

theorem tidy_runCalls (py : Python F) (calls : List (Call F)) (hplain : ∀ call ∈ calls, call.Plain py)
    (htime : ∀ call ∈ calls, call.InTime) : ∀ project, Tidy (runCalls py calls) project := by
  induction calls using List.reverseRecOn with
  | nil =>
    intro project
    exact ⟨[], [], rfl, rfl, fun r hr => (nomatch hr), fun r hr => (nomatch hr), fun r hr => (nomatch hr),
      fun s hs => (nomatch hs), rfl⟩
  | append_singleton calls call ih =>
    rw [runCalls, run, List.map_append, List.foldl_append]
    exact tidy_step (hplain call (List.mem_append_right _ List.mem_cons_self))
      (htime call (List.mem_append_right _ List.mem_cons_self))
      (ih (fun c hc => hplain c (List.mem_append_left _ hc)) fun c hc => htime c (List.mem_append_left _ hc))

omit [Json.PyFloat F] in
theorem lookup_identity {key : String} (hkey : key ∉ volatileKeys) (record : Fields F) :
    (identity record).lookup key = record.lookup key := by
  induction record with
  | nil => rfl
  | cons field rest ih =>
    obtain ⟨k, v⟩ := field
    by_cases hk : k = key
    · subst hk
      rw [identity, List.filter_cons_of_pos (by simp [hkey]), List.lookup_cons, List.lookup_cons, beq_self_eq_true]
    · rw [List.lookup_cons, beq_eq_false_iff_ne.mpr (Ne.symm hk), identity, List.filter_cons]
      split
      · rw [List.lookup_cons, beq_eq_false_iff_ne.mpr (Ne.symm hk)]
        exact ih
      · exact ih

/-- Records that were written, one by one or all at once, are read. -/
theorem read_written {records : List (Fields F)} (h : ∀ r ∈ records, isStorable r = true) (w : World F)
    (p : String) (file : File) (hempty : w.content p file = ByteArray.empty) :
    readRecords (((records.map fun r => Op.append p file (recordLine r)).foldl Op.exec w).content p file) =
        some records ∧
      readRecords ((Op.exec w (.replace p (records.flatMap recordLine))).content p .pending) = some records := by
  obtain ⟨w', hw', -, -, hcontent⟩ := foldl_appends p file records w
  constructor
  · rw [hw', hcontent, if_pos ⟨rfl, rfl⟩, hempty, ByteArray.empty_append]
    exact readRecords_lines h
  · have hwritten := content_write w p .pending (some (encode (records.flatMap recordLine))) p .pending
    rw [if_pos ⟨rfl, rfl⟩, Option.getD_some] at hwritten
    rw [← readRecords_lines h, ← hwritten]
    rfl

/-- **Every accepted record is in exactly one place**: delivered, a dead letter or
pending; only payloads of accepted records are sent; and records written are
records read.  Stored strings are plain, and no replay is made in the last hour of
the year 9999. -/
theorem accepted_in_one_place (py : Python F) (calls : List (Call F)) (hplain : ∀ call ∈ calls, call.Plain py)
    (htime : ∀ call ∈ calls, call.InTime) (project : String) :
    (∃ pending dead,
      readRecords ((runCalls py calls).content project .pending) = some pending ∧
      readRecords ((runCalls py calls).content project .deadLetter) = some dead ∧
      (((runCalls py calls).acceptedOf project).map identity).Perm
        (((runCalls py calls).deliveredOf project ++ dead ++ pending).map identity)) ∧
    (∀ s ∈ (runCalls py calls).sent, ∃ r ∈ (runCalls py calls).acceptedOf s.1,
      s.2.1.lookup "payload" = r.lookup "payload") ∧
    ∀ records : List (Fields F), (∀ r ∈ records, isStorable r = true) →
      ∀ (w : World F) (file : File), w.content project file = ByteArray.empty →
        readRecords (((records.map fun r => Op.append project file (recordLine r)).foldl Op.exec w).content
          project file) = some records ∧
        readRecords ((Op.exec w (.replace project (records.flatMap recordLine))).content project .pending) =
          some records := by
  refine ⟨?_, ?_, fun records h w file hempty => read_written h w project file hempty⟩
  · obtain ⟨pending, dead, h⟩ := tidy_runCalls py calls hplain htime project
    refine ⟨pending, dead, ?_, ?_, Multiset.coe_eq_coe.mp ?_⟩
    · rw [h.pending_file]
      exact readRecords_lines fun r hr => (h.pending_kept r hr).1
    · rw [h.dead_file]
      exact readRecords_lines fun r hr => (h.dead_kept r hr).1
    · have hdelivered : ∀ r ∈ (runCalls py calls).deliveredOf project, isStorable r = true := by
        intro r hr
        obtain ⟨s, hs, rfl⟩ := List.mem_map.mp hr
        obtain ⟨hs, hfor⟩ := List.mem_filter.mp hs
        exact (h.sent s hs (of_decide_eq_true hfor).1).1
      have hplaces : ∀ r ∈ (runCalls py calls).deliveredOf project ++ dead ++ pending, isStorable r = true :=
        List.forall_mem_append.mpr ⟨List.forall_mem_append.mpr
          ⟨hdelivered, fun r hr => (h.dead_kept r hr).1⟩, fun r hr => (h.pending_kept r hr).1⟩
      rw [← identities_of_storable h.accepted_storable, ← identities_of_storable hplaces, identities_append,
        identities_append]
      exact h.one_place
  · intro s hs
    obtain ⟨pending, dead, h⟩ := tidy_runCalls py calls hplain htime s.1
    obtain ⟨-, r, hr, hid⟩ := h.sent s hs rfl
    refine ⟨r, hr, ?_⟩
    rw [← lookup_identity (by decide) s.2.1, ← hid, lookup_identity (by decide)]

/-! ## A line break in a string -/

/-- An event is added, and a replay finds no server. -/
def offlineCalls (eventKey : String) : List (Call Empty) :=
  [enqueueEvent eventKey, .replay none ["demo"] 0 fun _ => ⟨.retryableHookError, 0⟩]

/-- The event `a` is still there. -/
theorem offline_event_in_one_place :
    (∃ pending dead,
      readRecords ((runCalls plainPython (offlineCalls "a")).content "demo" .pending) = some pending ∧
      readRecords ((runCalls plainPython (offlineCalls "a")).content "demo" .deadLetter) = some dead ∧
      (((runCalls plainPython (offlineCalls "a")).acceptedOf "demo").map identity).Perm
        (((runCalls plainPython (offlineCalls "a")).deliveredOf "demo" ++ dead ++ pending).map identity)) ∧
    (∀ s ∈ (runCalls plainPython (offlineCalls "a")).sent,
      ∃ r ∈ (runCalls plainPython (offlineCalls "a")).acceptedOf s.1,
        s.2.1.lookup "payload" = r.lookup "payload") ∧
    ∀ records : List (Fields Empty), (∀ r ∈ records, isStorable r = true) →
      ∀ (w : World Empty) (file : File), w.content "demo" file = ByteArray.empty →
        readRecords (((records.map fun r => Op.append "demo" file (recordLine r)).foldl Op.exec w).content
          "demo" file) = some records ∧
        readRecords ((Op.exec w (.replace "demo" (records.flatMap recordLine))).content "demo" .pending) =
          some records := by
  refine accepted_in_one_place plainPython (offlineCalls "a") ?_ ?_ "demo"
  · intro call hcall
    rcases List.mem_cons.mp hcall with rfl | hcall
    · exact enqueueEvent_plain (by decide)
    · rw [List.mem_singleton.mp hcall]
      trivial
  · intro call hcall
    rcases List.mem_cons.mp hcall with rfl | hcall
    · trivial
    · rw [List.mem_singleton.mp hcall]
      show InTime 0
      rw [InTime]
      decide

/-- **An event with U+2028 is lost**: the reader ends its line there, and the next
replay removes the file. -/
theorem lineBreak_event_lost : ¬ ∀ (py : Python Empty) (calls : List (Call Empty)) (project : String),
    ∃ pending dead,
      readRecords ((runCalls py calls).content project .pending) = some pending ∧
      readRecords ((runCalls py calls).content project .deadLetter) = some dead ∧
      (((runCalls py calls).acceptedOf project).map identity).Perm
        (((runCalls py calls).deliveredOf project ++ dead ++ pending).map identity) := by
  intro h
  obtain ⟨pending, dead, hpending, hdead, hperm⟩ := h plainPython (offlineCalls "\u2028") "demo"
  have hlost : (fun w : World Empty =>
      (readRecords (F := Empty) (w.content "demo" .pending)).map List.length = some 0 ∧
      (readRecords (F := Empty) (w.content "demo" .deadLetter)).map List.length = some 0 ∧
      (w.acceptedOf "demo").length = 1 ∧ (w.deliveredOf "demo").length = 0)
        (runCalls plainPython (offlineCalls "\u2028")) := by decide +kernel
  obtain ⟨hpending0, hdead0, haccepted, hdelivered⟩ := hlost
  rw [hpending, Option.map_some, Option.some.injEq] at hpending0
  rw [hdead, Option.map_some, Option.some.injEq] at hdead0
  have hlength := hperm.length_eq
  simp only [List.length_map, List.length_append] at hlength
  omega

end CodexMemory.Outbox
