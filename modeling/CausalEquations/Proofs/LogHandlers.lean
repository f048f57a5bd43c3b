import CausalEquations.Logging
import CausalEquations.Proofs.Listing

/-!
# Destinations of the shared logger

A set-up asks for destinations, and each of them is attached unless something with the same
destination is there. So a logger that starts out empty ends up with the first handler asked for at
each destination, and asking once more adds nothing.

* `LogDestination`, `LogRequest.destinations` — where records go, and what a set-up asks for.
* `Logger.attach`, `Logger.handlers_setUp` — a set-up as a run of attachments.
* `Logger.find?_attach_all`, `Logger.map_destination_attach_all` — what a run of attachments leaves.
* `Logger.AttachesOnce`, `Logger.attachesOnce_setUpAll` — the logger after any set-ups.
-/

namespace CausalEquations

/-- Where the records of a handler go. -/
inductive LogDestination where
  | file (path : String)
  | console
  deriving DecidableEq

namespace LogHandler

def destination : LogHandler → LogDestination
  | file path _ => .file path
  | stream _ => .console

def level : LogHandler → Int
  | file _ level => level
  | stream level => level

/-- The handler with a destination and a level. -/
def of (level : Int) : LogDestination → LogHandler
  | .file path => file path level
  | .console => stream level

@[simp] lemma destination_of (l : Int) (d : LogDestination) : (of l d).destination = d := by
  cases d <;> rfl

@[simp] lemma level_of (l : Int) (d : LogDestination) : (of l d).level = l := by
  cases d <;> rfl

lemma isFileAt_eq (path : String) :
    isFileAt path = fun h => decide (h.destination = .file path) := by
  funext h
  cases h <;> simp [isFileAt, destination, beq_eq_decide]

lemma isStream_eq : isStream = fun h => decide (h.destination = .console) := by
  funext h
  cases h <;> simp [isStream, destination]

end LogHandler

namespace LogRequest

variable {resolve : String → String} {request : LogRequest}

/-- The destinations that a request asks for, the file before the console. -/
def destinations (resolve : String → String) (request : LogRequest) : List LogDestination :=
  (request.file.map fun path => .file (resolve path)).toList ++
    if request.toConsole then [.console] else []

lemma file_mem_destinations {path : String} :
    .file path ∈ request.destinations resolve ↔ request.file.map resolve = some path := by
  cases hfile : request.file <;> cases hconsole : request.toConsole <;>
    simp [destinations, hfile, hconsole, eq_comm]

lemma console_mem_destinations :
    .console ∈ request.destinations resolve ↔ request.toConsole = true := by
  cases hfile : request.file <;> cases hconsole : request.toConsole <;>
    simp [destinations, hfile, hconsole]

/-- The handlers for these destinations, with the level of the request. -/
def handlers (resolve : String → String) (request : LogRequest) : List LogHandler :=
  (request.destinations resolve).map (LogHandler.of request.level)

lemma map_destination_handlers :
    (request.handlers resolve).map LogHandler.destination = request.destinations resolve := by
  simp [handlers, Function.comp_def]

end LogRequest

namespace Logger

/-! ## One attachment -/

/-- Attaches a handler unless its destination is served. -/
def attach (hs : List LogHandler) (h : LogHandler) : List LogHandler :=
  if hs.any fun g => g.destination = h.destination then hs else hs ++ [h]

variable {hs gs : List LogHandler} {h : LogHandler}

lemma attach_of_mem (hmem : h.destination ∈ hs.map LogHandler.destination) : attach hs h = hs := by
  simpa [attach] using hmem

lemma attach_of_notMem (hnew : h.destination ∉ hs.map LogHandler.destination) :
    attach hs h = hs ++ [h] := by
  simpa [attach] using hnew

lemma attachFile_eq (path : String) (level : Int) (hs : List LogHandler) :
    attachFile path level hs = attach hs (.file path level) := by
  rw [attachFile, LogHandler.isFileAt_eq]
  rfl

lemma attachStream_eq (level : Int) (hs : List LogHandler) :
    attachStream level hs = attach hs (.stream level) := by
  rw [attachStream, LogHandler.isStream_eq]
  rfl

/-- A set-up attaches what it asks for. -/
lemma handlers_setUp (resolve : String → String) (request : LogRequest) (logger : Logger) :
    (logger.setUp resolve request).handlers =
      (request.handlers resolve).foldl attach logger.handlers := by
  cases hfile : request.file <;> cases hconsole : request.toConsole <;>
    simp [setUp, LogRequest.handlers, LogRequest.destinations, LogHandler.of, hfile, hconsole,
      attachFile_eq, attachStream_eq]

/-- The first handler for a destination stays the first. -/
lemma find?_attach (hs : List LogHandler) (h : LogHandler) (d : LogDestination) :
    (attach hs h).find? (fun g => g.destination = d) =
      (hs ++ [h]).find? fun g => g.destination = d := by
  by_cases hmem : h.destination ∈ hs.map LogHandler.destination
  · rw [attach_of_mem hmem, List.find?_append]
    by_cases hd : h.destination = d
    · obtain ⟨g, hg, hgd⟩ := List.mem_map.mp hmem
      have hfound : (hs.find? fun g => g.destination = d).isSome := by
        rw [List.find?_isSome]
        exact ⟨g, hg, by simp [hgd, hd]⟩
      rw [Option.or_of_isSome hfound]
    · simp [hd]
  · rw [attach_of_notMem hmem]

/-- A destination that is new goes behind the others. -/
lemma map_destination_attach {asked : List LogDestination} (h : LogHandler)
    (hasked : hs.map LogHandler.destination = asked.eraseDups) :
    (attach hs h).map LogHandler.destination = (asked ++ [h.destination]).eraseDups := by
  have hmem : h.destination ∈ hs.map LogHandler.destination ↔ h.destination ∈ asked := by
    rw [hasked, List.mem_eraseDups]
  by_cases hold : h.destination ∈ asked
  · rw [attach_of_mem (hmem.mpr hold), hasked, List.eraseDups_append]
    simp [List.removeAll, hold]
  · have hone : [h.destination].eraseDups = [h.destination] := eraseDups_of_nodup (by simp)
    rw [attach_of_notMem (hmem.not.mpr hold), List.map_append, hasked, List.eraseDups_append]
    simp [List.removeAll, hold, hone]

/-! ## Runs of attachments -/

/-- Of several handlers for one destination the first one stays. -/
lemma find?_attach_all (hs gs : List LogHandler) (d : LogDestination) :
    (gs.foldl attach hs).find? (fun g => g.destination = d) =
      (hs ++ gs).find? fun g => g.destination = d := by
  induction gs generalizing hs with
  | nil => simp
  | cons g rest ih =>
      rw [List.foldl_cons, ih, List.find?_append, find?_attach, ← List.find?_append,
        List.append_assoc, List.singleton_append]

/-- The destinations stand as they were first asked for. -/
lemma map_destination_attach_all {asked : List LogDestination} (gs : List LogHandler)
    (hasked : hs.map LogHandler.destination = asked.eraseDups) :
    (gs.foldl attach hs).map LogHandler.destination =
      (asked ++ gs.map LogHandler.destination).eraseDups := by
  induction gs generalizing hs asked with
  | nil => simpa using hasked
  | cons g rest ih =>
      rw [List.foldl_cons, ih (map_destination_attach g hasked), List.map_cons,
        List.append_assoc, List.singleton_append]

/-- Where every destination is served, nothing is attached. -/
lemma attach_all_of_subset
    (hsub : gs.map LogHandler.destination ⊆ hs.map LogHandler.destination) :
    gs.foldl attach hs = hs := by
  induction gs with
  | nil => rfl
  | cons g rest ih =>
      rw [List.map_cons, List.cons_subset] at hsub
      rw [List.foldl_cons, attach_of_mem hsub.1, ih hsub.2]

/-- With one handler for each destination, every handler is the first for its own. -/
lemma find?_destination (hnodup : (hs.map LogHandler.destination).Nodup) (hmem : h ∈ hs) :
    hs.find? (fun g => g.destination = h.destination) = some h := by
  obtain ⟨g, hfound⟩ := Option.isSome_iff_exists.mp
    (List.find?_isSome.mpr ⟨h, hmem, decide_eq_true rfl⟩ :
      (hs.find? fun g => g.destination = h.destination).isSome)
  have hsame : g.destination = h.destination := by simpa using List.find?_some hfound
  rw [hfound, List.inj_on_of_nodup_map hnodup (List.mem_of_find?_eq_some hfound) hmem hsame]

/-! ## Runs of set-ups -/

variable {resolve : String → String} {requests : List LogRequest} {logger : Logger}

/-- Carries out requests one after the other. -/
def setUpAll (resolve : String → String) (requests : List LogRequest) (logger : Logger) : Logger :=
  requests.foldl (fun logger request => logger.setUp resolve request) logger

lemma handlers_setUpAll (resolve : String → String) (requests : List LogRequest)
    (logger : Logger) :
    (logger.setUpAll resolve requests).handlers =
      (requests.flatMap fun request => request.handlers resolve).foldl attach logger.handlers := by
  induction requests generalizing logger with
  | nil => rfl
  | cons request rest ih =>
      rw [List.flatMap_cons, List.foldl_append, ← handlers_setUp]
      exact ih _

/-- What a logger that starts out empty is after a run of requests. -/
structure AttachesOnce (resolve : String → String) (requests : List LogRequest) (last : Logger) :
    Prop where
  files : ∀ path, last.handlers.countP (LogHandler.isFileAt path) =
    if ∃ r ∈ requests, r.file.map resolve = some path then 1 else 0
  console : last.handlers.countP LogHandler.isStream =
    if ∃ r ∈ requests, r.toConsole = true then 1 else 0
  /-- The destinations stand in the order in which they were first asked for. -/
  order : FirstOccurrences (requests.flatMap fun r => r.destinations resolve) (fun _ => True)
    (last.handlers.map LogHandler.destination)
  /-- A handler has the level of the first request for its destination. -/
  level : ∀ h ∈ last.handlers, ∃ before r after, requests = before ++ r :: after ∧
    h.destination ∈ r.destinations resolve ∧ h.level = r.level ∧
    ∀ r' ∈ before, h.destination ∉ r'.destinations resolve
  /-- A request that is repeated attaches nothing. -/
  repeated : ∀ r ∈ requests, (last.setUp resolve r).handlers = last.handlers

section

variable (hlogger : logger.handlers = [])

include hlogger

lemma map_destination_setUpAll (resolve : String → String) (requests : List LogRequest) :
    (logger.setUpAll resolve requests).handlers.map LogHandler.destination =
      (requests.flatMap fun r => r.destinations resolve).eraseDups := by
  have hstart : logger.handlers.map LogHandler.destination =
      ([] : List LogDestination).eraseDups := by
    rw [hlogger]
    rfl
  rw [handlers_setUpAll, map_destination_attach_all _ hstart, List.nil_append, List.map_flatMap]
  simp only [LogRequest.map_destination_handlers]

lemma nodup_destination_setUpAll (resolve : String → String) (requests : List LogRequest) :
    ((logger.setUpAll resolve requests).handlers.map LogHandler.destination).Nodup := by
  rw [map_destination_setUpAll hlogger]
  exact nodup_eraseDups _

/-- Each destination is served by one handler if it was asked for, and else by none. -/
lemma countP_destination_setUpAll (resolve : String → String) (requests : List LogRequest)
    (d : LogDestination) :
    (logger.setUpAll resolve requests).handlers.countP (fun h => h.destination = d) =
      if ∃ r ∈ requests, d ∈ r.destinations resolve then 1 else 0 := by
  have hcount : ((logger.setUpAll resolve requests).handlers.map LogHandler.destination).count d =
      (logger.setUpAll resolve requests).handlers.countP fun h => h.destination = d := by
    rw [List.count_eq_countP, List.countP_map]
    rfl
  rw [← hcount, (nodup_destination_setUpAll hlogger resolve requests).count,
    map_destination_setUpAll hlogger]
  simp only [List.mem_eraseDups, List.mem_flatMap]

/-- Whoever asks first for a destination brings in its handler. -/
lemma exists_first_request {h : LogHandler}
    (hmem : h ∈ (logger.setUpAll resolve requests).handlers) :
    ∃ before r after, requests = before ++ r :: after ∧ h ∈ r.handlers resolve ∧
      ∀ r' ∈ before, h.destination ∉ r'.destinations resolve := by
  have hnodup := nodup_destination_setUpAll hlogger resolve requests
  have hfirst := find?_destination hnodup hmem
  rw [handlers_setUpAll, hlogger, find?_attach_all, List.nil_append, List.find?_flatMap,
    List.findSome?_eq_some_iff] at hfirst
  obtain ⟨before, r, after, hsplit, hfound, hnone⟩ := hfirst
  refine ⟨before, r, after, hsplit, List.mem_of_find?_eq_some hfound, fun r' hr' hasked => ?_⟩
  rw [← LogRequest.map_destination_handlers, List.mem_map] at hasked
  obtain ⟨g, hg, hdestination⟩ := hasked
  exact List.find?_eq_none.mp (hnone r' hr') g hg (by simpa using hdestination)

/-- **Destinations after any set-ups.** A logger that starts out empty has one handler for each file
and for the console as far as they were asked for, in the order of the first requests and with their
levels, and a request that is repeated changes nothing. -/
theorem attachesOnce_setUpAll (resolve : String → String) (requests : List LogRequest) :
    AttachesOnce resolve requests (logger.setUpAll resolve requests) where
  files path := by
    rw [LogHandler.isFileAt_eq, countP_destination_setUpAll hlogger]
    simp only [LogRequest.file_mem_destinations]
  console := by
    rw [LogHandler.isStream_eq, countP_destination_setUpAll hlogger]
    simp only [LogRequest.console_mem_destinations]
  order := by
    have hfirst := firstOccurrences_eraseDups
      (requests.flatMap fun r => r.destinations resolve) fun _ => true
    rw [map_destination_setUpAll hlogger]
    simpa using hfirst
  level h hmem := by
    obtain ⟨before, r, after, hsplit, hr, hbefore⟩ := exists_first_request hlogger hmem
    obtain ⟨d, hd, rfl⟩ := List.mem_map.mp hr
    refine ⟨before, r, after, hsplit, ?_, LogHandler.level_of r.level d, hbefore⟩
    rwa [LogHandler.destination_of]
  repeated r hr := by
    rw [handlers_setUp]
    refine attach_all_of_subset fun d hd => ?_
    rw [map_destination_setUpAll hlogger, List.mem_eraseDups, List.mem_flatMap]
    exact ⟨r, hr, LogRequest.map_destination_handlers ▸ hd⟩

end

/-- Two spellings of one file, the console asked for later and twice, and a second file. -/
theorem attachesOnce_setUpAll_spellings :
    let resolve := fun path => if path = "run.log" then "/srv/run.log" else path
    let requests : List LogRequest :=
      [⟨some "run.log", 10, false⟩, ⟨some "/srv/run.log", 30, true⟩, ⟨none, 20, true⟩,
        ⟨some "/srv/err.log", 40, false⟩]
    let last := ({} : Logger).setUpAll resolve requests
    last.handlers = [.file "/srv/run.log" 10, .stream 30, .file "/srv/err.log" 40] ∧
      AttachesOnce resolve requests last :=
  ⟨by decide +kernel, attachesOnce_setUpAll rfl _ _⟩

end Logger

end CausalEquations
