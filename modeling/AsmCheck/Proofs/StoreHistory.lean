import AsmCheck.Proofs.Rounds
import AsmCheck.Store
import Mathlib.Data.List.Nodup

/-! # Histories of a document store

    A client sends a store one request after the other.  Two things hold after
    every history, whatever was sent:

    * the store is *coherent*: its settings can be used, and every document has
      been analysed with just these settings (`Coherent.run`);
    * of each document the store has the latest version, no matter in which
      order the versions came in (`Recorded.run`).

    `Effect` says once what a request can make of a store; both are proved of
    an effect first, and of a history by induction.  Stores are compared by
    look-ups: two stores with the same settings and the same look-ups are equal,
    and each operation is known by what it does to a look-up. -/

namespace AsmCheck

/-- A version of a document, as a client hands it in. -/
structure Update where
  uri : String
  version : Int
  text : String
deriving DecidableEq

/-- The document that a store makes of an update. -/
def Update.document (u : Update) (config : Config) : Document where
  version := u.version
  text := u.text
  analysis := Analysis.ofText u.text config

namespace Store

variable {s : Store} {uri : String}

/-! ## Look-ups -/

/-- A store is known by its settings and its documents. -/
theorem ext_get? {s t : Store} (hconfig : s.config = t.config)
    (h : ∀ uri, s.get? uri = t.get? uri) : s = t := by
  cases s
  cases t
  congr 1
  exact Std.ExtTreeMap.ext_getElem? h

/-- Of a stored document and one that comes in, the one that stays. -/
def newer (old : Option Document) (d : Document) : Option Document :=
  if old.any (d.version < ·.version) then old else some d

@[simp] theorem newer_none (d : Document) : newer none d = some d := rfl

/-- Of two versions of a document the later one is kept, and of two equal ones the second. -/
theorem newer_some (c d : Document) :
    newer (some c) d = some (if d.version < c.version then c else d) := by
  rw [newer, Option.any_some]
  by_cases h : d.version < c.version
  · simp [h]
  · simp [h]

/-- The store after an update, which is dropped if it comes late. -/
def accept (s : Store) (u : Update) : Store :=
  if s.isStale u.uri u.version then s
  else { s with documents := s.documents.insert u.uri (u.document s.config) }

@[simp] theorem config_accept (s : Store) (u : Update) : (s.accept u).config = s.config := by
  rw [accept]
  split <;> rfl

/-- An update touches the document that it names, and no other. -/
theorem get?_accept (s : Store) (u : Update) (uri : String) :
    (s.accept u).get? uri =
      if u.uri = uri then newer (s.get? uri) (u.document s.config) else s.get? uri := by
  by_cases huri : u.uri = uri
  · subst huri
    rw [if_pos rfl, accept, newer]
    show (if s.isStale u.uri u.version then s else _ : Store).get? u.uri =
      if s.isStale u.uri u.version then _ else _
    split
    · rfl
    · simp [get?]
  · rw [if_neg huri, accept]
    split
    · rfl
    · simp [get?, Std.ExtTreeMap.getElem?_insert, huri]

/-- Closing a document removes that one, and no other. -/
theorem get?_close (s : Store) (closed uri : String) :
    (s.close closed).1.get? uri = if closed = uri then none else s.get? uri := by
  simp [get?, close, Std.ExtTreeMap.getElem?_erase]

/-- The store with other settings, all of its documents analysed anew. -/
def renew (s : Store) (config : Config) : Store where
  config := config
  documents := s.documents.map fun _ d => { d with analysis := Analysis.ofText d.text config }

/-- New settings have every document analysed again, and change nothing else about it. -/
theorem get?_renew (s : Store) (config : Config) (uri : String) :
    (s.renew config).get? uri =
      (s.get? uri).map fun d => { d with analysis := Analysis.ofText d.text config } := by
  simp [get?, renew, Std.ExtTreeMap.getElem?_map]

/-! ## Operations -/

/-- Under usable settings an update never fails, and one that comes late gives no analysis. -/
theorem update_eq (h : s.config.validate = .ok ()) (u : Update) :
    s.update u.uri u.version u.text =
      .ok (s.accept u,
        if s.isStale u.uri u.version then none else some (Analysis.ofText u.text s.config)) := by
  rw [update, Analysis.ofSource_eq_ok h, accept]
  show (if s.isStale u.uri u.version then _ else _) = _
  cases s.isStale u.uri u.version <;> rfl

/-- Usable settings are taken over. -/
theorem setConfig_eq_ok {config : Config} (h : config.validate = .ok ()) :
    s.setConfig config = .ok (s.renew config) := by
  rw [setConfig, h]
  rfl

/-- Settings that cannot be used are refused. -/
theorem setConfig_eq_error {config : Config} {why : ConfigError}
    (h : config.validate = .error why) : s.setConfig config = .error (.config why) := by
  rw [setConfig, h]

/-- An update comes late exactly if a later version is there already. -/
theorem isStale_iff {version : Int} :
    s.isStale uri version = true ↔ ∃ d, s.get? uri = some d ∧ version < d.version := by
  rw [isStale, Option.any_eq_true]
  simp only [decide_eq_true_eq]

/-! ## Requests -/

/-- What a client can ask of a store. -/
inductive Request where
  | update (u : Update)
  | close (uri : String)
  | setConfig (config : Config)
  | get (uri : String)
  | analysis (uri : String)
  | uris
deriving DecidableEq

/-- What a store can answer. -/
inductive Answer where
  /-- The analysis of the version that is now stored, none if the update came late. -/
  | updated (analysis : Option Analysis)
  | closed (wasOpen : Bool)
  | configured
  | document (stored : Option Document)
  | analysis (a : Analysis)
  | uris (names : List String)
  | failed (why : Error)

/-- Performs one request. -/
def perform (s : Store) : Request → Store × Answer
  | .update u =>
    match s.update u.uri u.version u.text with
    | .ok (s', analysis) => (s', .updated analysis)
    | .error why => (s, .failed why)
  | .close uri => ((s.close uri).1, .closed (s.close uri).2)
  | .setConfig config =>
    match s.setConfig config with
    | .ok s' => (s', .configured)
    | .error why => (s, .failed why)
  | .get uri => (s, .document (s.get? uri))
  | .analysis uri =>
    match s.analysis uri with
    | .ok a => (s, .analysis a)
    | .error why => (s, .failed why)
  | .uris => (s, .uris s.uris)

/-- The store after a history of requests. -/
def run (s : Store) (history : List Request) : Store :=
  history.foldl (fun s r => (s.perform r).1) s

/-- A history may be cut in two and performed one part after the other. -/
theorem run_append (s : Store) (before after : List Request) :
    s.run (before ++ after) = (s.run before).run after :=
  List.foldl_append

/-- The last request of a history is performed on what the others have left. -/
theorem run_snoc (s : Store) (history : List Request) (r : Request) :
    s.run (history ++ [r]) = ((s.run history).perform r).1 :=
  run_append s history [r]

/-- What an update does, and what it answers. -/
theorem perform_update (h : s.config.validate = .ok ()) (u : Update) :
    s.perform (.update u) =
      (s.accept u, .updated
        (if s.isStale u.uri u.version then none else some (Analysis.ofText u.text s.config))) := by
  rw [perform, update_eq h]

/-- What new settings do, if they can be used. -/
theorem perform_setConfig_ok {config : Config} (h : config.validate = .ok ()) :
    s.perform (.setConfig config) = (s.renew config, .configured) := by
  rw [perform, setConfig_eq_ok h]

/-- Settings that cannot be used leave the store as it is. -/
theorem perform_setConfig_error {config : Config} {why : ConfigError}
    (h : config.validate = .error why) :
    s.perform (.setConfig config) = (s, .failed (.config why)) := by
  rw [perform, setConfig_eq_error h]

/-- The version of a document that a request hands in. -/
def Request.updateOf? (uri : String) : Request → Option Update
  | .update u => if u.uri = uri then some u else none
  | _ => none

/-- What a request can make of a store. -/
inductive Effect (s : Store) : Request → Store → Prop where
  | update (u : Update) : Effect s (.update u) (s.accept u)
  | close (uri : String) : Effect s (.close uri) (s.close uri).1
  | setConfig {config : Config} (h : config.validate = .ok ()) :
      Effect s (.setConfig config) (s.renew config)
  /-- Questions, and settings that cannot be used, change nothing. -/
  | nothing {r : Request} (h : ∀ uri, r ≠ .close uri ∧ r.updateOf? uri = none) : Effect s r s

/-- Under usable settings every request has the effect that it is meant to have. -/
theorem effect_perform (h : s.config.validate = .ok ()) (r : Request) :
    s.Effect r (s.perform r).1 := by
  cases r with
  | update u =>
      rw [perform_update h]
      exact .update u
  | close uri => exact .close uri
  | setConfig config =>
      cases hconfig : config.validate with
      | ok =>
          rw [perform_setConfig_ok hconfig]
          exact .setConfig hconfig
      | error why =>
          rw [perform_setConfig_error hconfig]
          exact .nothing fun uri => ⟨by simp, rfl⟩
  | get _ => exact .nothing fun uri => ⟨by simp, rfl⟩
  | analysis uri =>
      rw [perform]
      split <;> exact .nothing fun uri => ⟨by simp, rfl⟩
  | uris => exact .nothing fun uri => ⟨by simp, rfl⟩

/-! ## Coherence -/

/-- The settings can be used, and every document has been analysed with them. -/
structure Coherent (s : Store) : Prop where
  valid : s.config.validate = .ok ()
  current : ∀ {uri d}, s.get? uri = some d → d.analysis = Analysis.ofText d.text s.config

/-- A store as a client gets it. -/
def IsNew (s : Store) : Prop :=
  s = {} ∨ ∃ config, ofConfig config = .ok s

theorem IsNew.get? (h : s.IsNew) (uri : String) : s.get? uri = none := by
  rcases h with rfl | ⟨config, h⟩
  · exact Std.ExtTreeMap.getElem?_empty
  · rw [ofConfig] at h
    split at h <;> cases h
    exact Std.ExtTreeMap.getElem?_empty

/-- A store without documents is coherent. -/
theorem IsNew.coherent (h : s.IsNew) : s.Coherent where
  valid := by
    rcases h with rfl | ⟨config, h⟩
    · rfl
    · rw [ofConfig] at h
      split at h
      · next hvalid =>
        cases h
        exact hvalid
      · cases h
  current hd := by
    rw [h.get?] at hd
    cases hd

namespace Coherent

/-- An update keeps a store coherent: what it puts in is analysed under the store's settings. -/
theorem accept (h : s.Coherent) (u : Update) : (s.accept u).Coherent where
  valid := by
    rw [config_accept]
    exact h.valid
  current := by
    intro uri d hd
    rw [get?_accept] at hd
    rw [config_accept]
    by_cases huri : u.uri = uri
    · rw [if_pos huri, newer] at hd
      split at hd
      · exact h.current hd
      · cases hd
        rfl
    · rw [if_neg huri] at hd
      exact h.current hd

/-- Closing a document keeps a store coherent. -/
theorem close (h : s.Coherent) (closed : String) : (s.close closed).1.Coherent where
  valid := h.valid
  current := by
    intro uri d hd
    rw [get?_close] at hd
    split at hd
    · cases hd
    · exact h.current hd

/-- A store is coherent under any usable settings that it has just been given. -/
theorem renew (s : Store) {config : Config} (hvalid : config.validate = .ok ()) :
    (s.renew config).Coherent where
  valid := hvalid
  current := by
    intro uri d hd
    rw [get?_renew, Option.map_eq_some_iff] at hd
    obtain ⟨old, -, rfl⟩ := hd
    rfl

/-- Hence every request keeps a store coherent, -/
theorem effect {r : Request} {s' : Store} (h : s.Coherent) (hr : s.Effect r s') : s'.Coherent := by
  cases hr with
  | update u => exact h.accept u
  | close uri => exact h.close uri
  | setConfig hvalid => exact renew s hvalid
  | nothing _ => exact h

/-- and so does every history. -/
theorem run (h : s.Coherent) (history : List Request) : (s.run history).Coherent := by
  induction history generalizing s with
  | nil => exact h
  | cons r history ih => exact ih (h.effect (effect_perform h.valid r))

end Coherent

/-! ## The latest version -/

/-- The requests since a document was last closed. -/
def sinceClose (uri : String) (history : List Request) : List Request :=
  (history.reverse.takeWhile (· ≠ .close uri)).reverse

/-- The versions of a document that were handed in since it was last closed, in this order. -/
def updates (uri : String) (history : List Request) : List Update :=
  (sinceClose uri history).filterMap (Request.updateOf? uri)

/-- Among some versions, the last of those with the greatest number. -/
def IsLatest (us : List Update) (u : Update) : Prop :=
  (∀ w ∈ us, w.version ≤ u.version) ∧
    ∃ before after, us = before ++ u :: after ∧ ∀ w ∈ after, w.version < u.version

/-- What a store has of a document is the latest of some versions, and nothing if there are none. -/
def Recorded (us : List Update) : Option Document → Prop
  | none => us = []
  | some d => ∃ u, IsLatest us u ∧ d.version = u.version ∧ d.text = u.text

/-- Closing a document starts its history anew. -/
theorem sinceClose_snoc (uri : String) (history : List Request) (r : Request) :
    sinceClose uri (history ++ [r]) =
      if r = .close uri then [] else sinceClose uri history ++ [r] := by
  rw [sinceClose, List.reverse_append, List.reverse_singleton, List.singleton_append,
    List.takeWhile_cons]
  by_cases hr : r = .close uri
  · simp [hr]
  · simp [hr, sinceClose]

/-- An update counts from then on, until the document is closed. -/
theorem updates_snoc (uri : String) (history : List Request) (r : Request) :
    updates uri (history ++ [r]) =
      if r = .close uri then [] else updates uri history ++ (r.updateOf? uri).toList := by
  rw [updates, sinceClose_snoc]
  split
  · rfl
  · rw [List.filterMap_append, updates]
    cases h : r.updateOf? uri <;> simp [h]

theorem updates_snoc_update (history : List Request) (u : Update) :
    updates u.uri (history ++ [.update u]) = updates u.uri history ++ [u] := by
  simp [updates_snoc, Request.updateOf?]

/-- A request that does not concern a document adds nothing to its updates. -/
theorem updates_snoc_of_none {history : List Request} {r : Request} (hr : r ≠ .close uri)
    (h : r.updateOf? uri = none) : updates uri (history ++ [r]) = updates uri history := by
  simp [updates_snoc, hr, h]

theorem isLatest_singleton (u : Update) : IsLatest [u] u := by
  exact ⟨by simp, [], [], rfl, by simp⟩

/-- A late version leaves the latest as it is. -/
theorem IsLatest.snoc_of_lt {us : List Update} {u w : Update} (h : IsLatest us u)
    (hlt : w.version < u.version) : IsLatest (us ++ [w]) u := by
  obtain ⟨hle, before, after, rfl, hafter⟩ := h
  refine ⟨?_, before, after ++ [w], by simp, ?_⟩
  · intro x hx
    rcases List.mem_append.mp hx with hx | hx
    · exact hle x hx
    · rw [List.mem_singleton.mp hx]
      omega
  · intro x hx
    rcases List.mem_append.mp hx with hx | hx
    · exact hafter x hx
    · rw [List.mem_singleton.mp hx]
      exact hlt

/-- Any other is the latest from then on, also if it repeats the number. -/
theorem IsLatest.snoc_of_le {us : List Update} {u w : Update} (h : IsLatest us u)
    (hle : u.version ≤ w.version) : IsLatest (us ++ [w]) w := by
  refine ⟨?_, us, [], rfl, by simp⟩
  intro x hx
  rcases List.mem_append.mp hx with hx | hx
  · have := h.1 x hx
    omega
  · obtain rfl := List.mem_singleton.mp hx
    exact Int.le_refl _

/-- What is kept after an update is the latest of all updates so far. -/
theorem Recorded.newer {us : List Update} {old : Option Document} (h : Recorded us old)
    (u : Update) (config : Config) :
    Recorded (us ++ [u]) (Store.newer old (u.document config)) := by
  cases old with
  | none =>
      have hus : us = [] := h
      subst hus
      exact ⟨u, isLatest_singleton u, rfl, rfl⟩
  | some d =>
      obtain ⟨w, hw, hversion, htext⟩ := h
      rw [newer_some]
      by_cases hlt : u.version < d.version
      · rw [if_pos (show (u.document config).version < d.version from hlt)]
        exact ⟨w, hw.snoc_of_lt (hversion ▸ hlt), hversion, htext⟩
      · rw [if_neg (show ¬ (u.document config).version < d.version from hlt)]
        exact ⟨u, hw.snoc_of_le (by omega), rfl, rfl⟩

/-- An analysis made anew changes neither version nor text. -/
theorem Recorded.map {us : List Update} {old : Option Document} (h : Recorded us old)
    (f : Document → Analysis) :
    Recorded us (old.map fun d => { d with analysis := f d }) := by
  cases old with
  | none => exact h
  | some d => exact h

/-- One more request keeps track of the latest version. -/
theorem Recorded.effect {history : List Request} {r : Request} {s' : Store}
    (h : Recorded (updates uri history) (s.get? uri)) (hr : s.Effect r s') :
    Recorded (updates uri (history ++ [r])) (s'.get? uri) := by
  cases hr with
  | update u =>
      rw [get?_accept]
      by_cases huri : u.uri = uri
      · subst huri
        rw [if_pos rfl, updates_snoc_update]
        exact h.newer u s.config
      · rw [if_neg huri, updates_snoc_of_none (by simp) (by simp [Request.updateOf?, huri])]
        exact h
  | close closed =>
      rw [get?_close]
      by_cases huri : closed = uri
      · rw [if_pos huri, updates_snoc, if_pos (by rw [huri])]
        rfl
      · rw [if_neg huri, updates_snoc_of_none (by simpa using huri) rfl]
        exact h
  | setConfig _ =>
      rw [get?_renew, updates_snoc_of_none (by simp) rfl]
      exact h.map _
  | nothing hr =>
      rw [updates_snoc_of_none (hr uri).1 (hr uri).2]
      exact h

/-- After every history a document is the latest of its updates since it was last closed. -/
theorem Recorded.run (hs : s.IsNew) (uri : String) (history : List Request) :
    Recorded (updates uri history) ((s.run history).get? uri) := by
  induction history using List.reverseRecOn with
  | nil =>
      show Recorded (updates uri []) (s.get? uri)
      rw [hs.get?]
      rfl
  | append_singleton history r ih =>
      rw [run_snoc]
      exact ih.effect (effect_perform (hs.coherent.run history).valid r)

/-- It is there exactly if it has been updated since. -/
theorem isSome_get?_run (hs : s.IsNew) (uri : String) (history : List Request) :
    ((s.run history).get? uri).isSome = true ↔ ∃ u, u ∈ updates uri history := by
  have h := Recorded.run hs uri history
  cases hd : (s.run history).get? uri with
  | none =>
      rw [hd] at h
      have hnil : updates uri history = [] := h
      simp [hnil]
  | some d =>
      rw [hd] at h
      obtain ⟨u, ⟨-, before, after, heq, -⟩, -⟩ := h
      exact ⟨fun _ => ⟨u, by simp [heq]⟩, fun _ => rfl⟩

/-! ## The order of updates -/

/-- Two versions with different numbers may come in either order. -/
theorem newer_comm (old : Option Document) {d e : Document} (h : d.version ≠ e.version) :
    newer (newer old d) e = newer (newer old e) d := by
  cases old with
  | none =>
      simp only [newer_none, newer_some]
      grind
  | some c =>
      simp only [newer_some]
      grind

/-- Updates of different documents, or with different numbers, can be exchanged. -/
theorem accept_comm (s : Store) {u w : Update} (h : u.uri = w.uri → u.version ≠ w.version) :
    (s.accept u).accept w = (s.accept w).accept u := by
  refine ext_get? (by simp) fun uri => ?_
  simp only [get?_accept, config_accept]
  by_cases hu : u.uri = uri
  · by_cases hw : w.uri = uri
    · simp only [if_pos hu, if_pos hw]
      exact newer_comm _ (h (hu.trans hw.symm))
    · simp only [if_pos hu, if_neg hw]
  · simp only [if_neg hu]

/-- A history of updates takes them in one after the other. -/
theorem run_updates (h : s.config.validate = .ok ()) (us : List Update) :
    s.run (us.map .update) = us.foldl accept s := by
  induction us generalizing s with
  | nil => rfl
  | cons u us ih =>
      have hrun : s.run ((u :: us).map .update) =
          ((s.perform (.update u)).1).run (us.map .update) := rfl
      rw [hrun, perform_update h, List.foldl_cons]
      exact ih (by rw [config_accept]; exact h)

/-- Updates of which no two have the same document and number may come in any order. -/
theorem foldl_accept_perm {us ws : List Update}
    (hdistinct : (us.map fun u => (u.uri, u.version)).Nodup) (hperm : us.Perm ws) (s : Store) :
    us.foldl accept s = ws.foldl accept s := by
  refine hperm.foldl_eq' ?_ s
  intro u hu w hw z
  by_cases heq : u = w
  · rw [heq]
  · refine accept_comm z fun huri hversion => heq ?_
    exact List.inj_on_of_nodup_map hdistinct hu hw (by rw [huri, hversion])

/-! ## After every history -/

/-- What holds of a store after every history: its settings can be used, every document has been
    analysed with them, no update fails, settings that cannot be used leave the store as it is, and
    so does an update that comes late, which is one with a newer version stored. -/
theorem coherent_after_history (s : Store) (hs : s.IsNew) (history : List Request) :
    (s.run history).config.validate = .ok () ∧
      (∀ uri d, (s.run history).get? uri = some d →
        Analysis.ofSource d.text (s.run history).config = .ok d.analysis) ∧
      (∀ u : Update, ∃ after, (s.run history).update u.uri u.version u.text = .ok after) ∧
      (∀ config why, config.validate = .error why →
        (s.run history).perform (.setConfig config) =
          (s.run history, .failed (.config why))) ∧
      (∀ (u : Update) (after : Store),
        (s.run history).update u.uri u.version u.text = .ok (after, none) ↔
          after = s.run history ∧
            ∃ d, (s.run history).get? u.uri = some d ∧ u.version < d.version) := by
  have h := hs.coherent.run history
  refine ⟨h.valid, ?_, ?_, fun config why => perform_setConfig_error, ?_⟩
  · intro uri d hd
    rw [Analysis.ofSource_eq_ok h.valid, h.current hd]
  · intro u
    exact ⟨_, update_eq h.valid u⟩
  · intro u after
    rw [update_eq h.valid, ← isStale_iff, accept]
    cases (s.run history).isStale u.uri u.version with
    | true => simp [eq_comm]
    | false => simp

/-- A history with settings that cannot be used and a version that comes late. -/
def outOfOrder : List Request :=
  [.update ⟨"a.s", 2, "ret\n"⟩, .setConfig { maxRounds := 0 }, .update ⟨"a.s", 1, "nop\n"⟩,
    .setConfig { checksSubroutines := false }, .update ⟨"b.s", 1, "nop\n"⟩, .close "b.s"]

theorem updates_outOfOrder :
    updates "a.s" outOfOrder = [⟨"a.s", 2, "ret\n"⟩, ⟨"a.s", 1, "nop\n"⟩] := by
  decide

/-- The document that stays open in the end has been analysed with the settings as they are then, and
    further settings that cannot be used change nothing. -/
theorem outOfOrder_coherent :
    ({} : Store).IsNew ∧
      (∃ d, (({} : Store).run outOfOrder).get? "a.s" = some d ∧
        Analysis.ofSource d.text (({} : Store).run outOfOrder).config = .ok d.analysis) ∧
      (({} : Store).run outOfOrder).perform (.setConfig { marker := " " }) =
        (({} : Store).run outOfOrder, .failed (.config .emptyMarker)) := by
  have hnew : ({} : Store).IsNew := Or.inl rfl
  obtain ⟨-, hcurrent, -, hrefused, -⟩ := coherent_after_history {} hnew outOfOrder
  have hopen := (isSome_get?_run hnew "a.s" outOfOrder).mpr
    ⟨⟨"a.s", 2, "ret\n"⟩, by rw [updates_outOfOrder]; simp⟩
  obtain ⟨d, hd⟩ := Option.isSome_iff_exists.mp hopen
  exact ⟨hnew, ⟨d, hd, hcurrent "a.s" d hd⟩, hrefused _ _ (by decide)⟩

/-- The latest text wins, whatever the order in which versions come in: after every history a store
    has a document exactly if a version of it was handed in since it was last closed, and then it
    has the last of those with the greatest number; and updates that have different numbers for each
    document can come in any order. -/
theorem latest_version_wins (s : Store) (hs : s.IsNew) (history : List Request) :
    (∀ uri, ((s.run history).get? uri).isSome = true ↔ ∃ u, u ∈ updates uri history) ∧
      (∀ uri d, (s.run history).get? uri = some d →
        ∃ u, IsLatest (updates uri history) u ∧ d.version = u.version ∧ d.text = u.text) ∧
      ∀ us ws : List Update, (us.map fun u => (u.uri, u.version)).Nodup → us.Perm ws →
        s.run (history ++ us.map .update) = s.run (history ++ ws.map .update) := by
  refine ⟨fun uri => isSome_get?_run hs uri history, ?_, ?_⟩
  · intro uri d hd
    have h := Recorded.run hs uri history
    rw [hd] at h
    exact h
  · intro us ws hdistinct hperm
    have hvalid := (hs.coherent.run history).valid
    rw [run_append, run_append, run_updates hvalid, run_updates hvalid]
    exact foldl_accept_perm hdistinct hperm _

/-- The second version stays though the first comes in after it, and two more may come in any
    order. -/
theorem outOfOrder_latest :
    ({} : Store).IsNew ∧
      (∃ d, (({} : Store).run outOfOrder).get? "a.s" = some d ∧ d.version = 2 ∧ d.text = "ret\n") ∧
      ({} : Store).run (outOfOrder ++ [.update ⟨"a.s", 3, "hlt\n"⟩, .update ⟨"a.s", 4, "nop\n"⟩]) =
        ({} : Store).run
          (outOfOrder ++ [.update ⟨"a.s", 4, "nop\n"⟩, .update ⟨"a.s", 3, "hlt\n"⟩]) := by
  obtain ⟨hsome, hlatest, hperm⟩ := latest_version_wins {} (Or.inl rfl) outOfOrder
  refine ⟨Or.inl rfl, ?_, ?_⟩
  · have hopen := (hsome "a.s").mpr ⟨⟨"a.s", 2, "ret\n"⟩, by rw [updates_outOfOrder]; simp⟩
    obtain ⟨d, hd⟩ := Option.isSome_iff_exists.mp hopen
    obtain ⟨u, ⟨hle, before, after, heq, -⟩, hversion, htext⟩ := hlatest "a.s" d hd
    have hmem : u ∈ updates "a.s" outOfOrder := by simp [heq]
    rw [updates_outOfOrder] at hmem hle
    have hmin : 2 ≤ u.version := hle ⟨"a.s", 2, "ret\n"⟩ (by simp)
    refine ⟨d, hd, ?_⟩
    rcases List.mem_pair.mp hmem with rfl | rfl
    · exact ⟨hversion, htext⟩
    · exact absurd hmin (by decide)
  · exact hperm [⟨"a.s", 3, "hlt\n"⟩, ⟨"a.s", 4, "nop\n"⟩] _ (by decide) (.swap _ _ _)

end Store

end AsmCheck
