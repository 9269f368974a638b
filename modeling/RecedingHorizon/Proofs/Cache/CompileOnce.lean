import Mathlib
import RecedingHorizon.Proofs.Cache.Queries

/-!
A cache compiles every structure once. At any time the keys in it are those that the engine has
compiled, each of them once, and those that requests have been served for. A request that fails
leaves the cache as it was, whether the problem is invalid or the engine rejects it, and no entry is
ever replaced or removed. So the engine is asked about a valid problem exactly if no request with its
key has been served yet.
-/

namespace RecedingHorizon

variable {α κ σ : Type}

/-- The key that the engine is asked for. -/
def Query.askedKey? : Query Float → Option Bytes
  | .compile p _ => some p.key
  | .solve _ _ => none

/-- The key that the engine has then compiled. -/
def Query.compiledKey? : Query Float → Option Bytes
  | .compile p true => some p.key
  | _ => none

/-- A query for a key that an earlier one has compiled. -/
def Query.Repeats (later earlier : Query Float) : Prop :=
  ∃ key, earlier.compiledKey? = some key ∧ later.askedKey? = some key

def compiledKeys (log : List (Query Float)) : List Bytes := log.filterMap Query.compiledKey?

def Answer.isOk : Answer → Bool
  | .issued report => report.result.isOk
  | .replied reply _ => reply.isOk
  | .unknown => false

/-- The keys of the requests that got a handle. -/
def servedKeys (trace : List (Event × Answer)) : List Bytes :=
  trace.filterMap fun
    | (.request p, answer) => if answer.isOk then some p.key else none
    | _ => none

theorem compiledKeys_append (earlier later : List (Query Float)) :
    compiledKeys (earlier ++ later) = compiledKeys earlier ++ compiledKeys later :=
  List.filterMap_append

theorem servedKeys_append (earlier later : List (Event × Answer)) :
    servedKeys (earlier ++ later) = servedKeys earlier ++ servedKeys later :=
  List.filterMap_append

theorem Query.askedKey?_of_compiledKey? {query : Query Float} {key : Bytes}
    (h : query.compiledKey? = some key) : query.askedKey? = some key := by
  cases query with
  | compile p compiled =>
      cases compiled with
      | true => exact h
      | false => cases h
  | solve source input => cases h

theorem mem_servedKeys {trace : List (Event × Answer)} {key : Bytes} :
    key ∈ servedKeys trace ↔
      ∃ p answer, (.request p, answer) ∈ trace ∧ answer.isOk = true ∧ p.key = key := by
  simp only [servedKeys, List.mem_filterMap]
  constructor
  · rintro ⟨⟨event, answer⟩, hmem, hkey⟩
    cases event with
    | request p =>
        obtain ⟨hok, hkey⟩ := Option.ite_none_right_eq_some.1 hkey
        exact ⟨p, answer, hmem, hok, Option.some.inj hkey⟩
    | call number call => cases hkey
  · rintro ⟨p, answer, hmem, hok, rfl⟩
    exact ⟨_, hmem, if_pos hok⟩

theorem mem_servedKeys_append_singleton {trace : List (Event × Answer)} {p : Problem Float}
    {answer : Answer} {key : Bytes} :
    key ∈ servedKeys (trace ++ [(.request p, answer)]) ↔
      key ∈ servedKeys trace ∨ answer.isOk = true ∧ key = p.key := by
  cases hok : answer.isOk <;> simp [servedKeys, hok]

/-! ### One request -/

namespace Cache

def keys (c : Cache κ) : List Bytes := c.entries.map Prod.fst

theorem find?_eq_none_iff {c : Cache κ} {key : Bytes} : c.find? key = none ↔ key ∉ c.keys := by
  simp only [find?, keys, List.lookup_eq_none_iff, List.mem_map, not_exists, not_and]
  refine forall₂_congr fun entry _ => ?_
  rw [bne_iff_ne, ne_comm]

variable [Spectral Float] (engine : Engine Float σ κ) {c : Cache κ}

/-- All that a request can come to. -/
theorem request_cases (c : Cache κ) (p : Problem Float) (s : σ) :
    ((c.handle engine p s).1.result.isOk = false ∧ ¬ p.validate = .ok () ∧
        c.asked engine p s = [] ∧ (c.handle engine p s).2.1 = c) ∨
      p.validate = .ok () ∧
        ((p.key ∈ c.keys ∧ (c.handle engine p s).1.result.isOk = true ∧ c.asked engine p s = [] ∧
            (c.handle engine p s).2.1 = c) ∨
          p.key ∉ c.keys ∧
            ((c.handle engine p s).1.result.isOk = false ∧
                c.asked engine p s = [.compile p false] ∧ (c.handle engine p s).2.1 = c ∨
              ∃ artifact, (c.handle engine p s).1.result.isOk = true ∧
                c.asked engine p s = [.compile p true] ∧
                (c.handle engine p s).2.1 = c.insert p.key artifact)) := by
  rcases handle_cases engine c p s with ⟨e, hinvalid, hresult, hcache⟩ | ⟨hvalid,
    ⟨artifact, hfind, hresult, hcache⟩ | ⟨hfind, ⟨text, hcompile, hresult, hcache⟩ |
      ⟨artifact, hcompile, hresult, hcache⟩⟩⟩
  · have hvalidate : ¬ p.validate = .ok () := fun h => by
      cases hinvalid.symm.trans (Problem.checkCompilable_eq_ok.2 h)
    exact .inl ⟨by rw [hresult]; rfl, hvalidate, if_neg fun h => hvalidate h.1, hcache⟩
  · have hknown : p.key ∈ c.keys := by
      by_contra h
      cases hfind.symm.trans (find?_eq_none_iff.2 h)
    have hasked : c.asked engine p s = [] := if_neg fun h => by cases hfind.symm.trans h.2
    exact .inr ⟨hvalid, .inl ⟨hknown, by rw [hresult]; rfl, hasked, hcache⟩⟩
  · refine .inr ⟨hvalid, .inr ⟨find?_eq_none_iff.1 hfind, .inl ⟨by rw [hresult]; rfl, ?_, hcache⟩⟩⟩
    rw [asked, if_pos ⟨hvalid, hfind⟩, hcompile]
    rfl
  · refine .inr ⟨hvalid, .inr ⟨find?_eq_none_iff.1 hfind,
      .inr ⟨artifact, by rw [hresult]; rfl, ?_, hcache⟩⟩⟩
    rw [asked, if_pos ⟨hvalid, hfind⟩, hcompile]
    rfl

/-- An entry stays what it is. -/
theorem find?_handle_of_find? {key : Bytes} {artifact : κ} (hfind : c.find? key = some artifact)
    (p : Problem Float) (s : σ) : (c.handle engine p s).2.1.find? key = some artifact := by
  rcases c.request_cases engine p s with ⟨-, -, -, hcache⟩ | ⟨-, ⟨-, -, -, hcache⟩ |
    ⟨hnew, ⟨-, -, hcache⟩ | ⟨_, -, -, hcache⟩⟩⟩
  · rwa [hcache]
  · rwa [hcache]
  · rwa [hcache]
  · have hother : key ≠ p.key := by
      rintro rfl
      cases hfind.symm.trans (find?_eq_none_iff.2 hnew)
    rwa [hcache, find?_insert_of_ne c _ hother]

end Cache

/-! ### Runs -/

/-- The keys in a cache are those that the engine has compiled, once each, and those that requests
were served for. -/
structure Ledger [Spectral Float] (log : List (Query Float)) (trace : List (Event × Answer))
    (c : Cache κ) : Prop where
  keys : c.keys = (compiledKeys log).reverse
  served : ∀ key, key ∈ servedKeys trace ↔ key ∈ c.keys
  valid : ∀ p compiled, .compile p compiled ∈ log → p.validate = .ok ()
  once : log.Pairwise fun earlier later => ¬ later.Repeats earlier

namespace Ledger

variable [Spectral Float] {log : List (Query Float)} {trace : List (Event × Answer)} {c : Cache κ}
  {p : Problem Float} {answer : Answer}

theorem mem_keys_iff (hledger : Ledger log trace c) {key : Bytes} :
    key ∈ c.keys ↔ ∃ query ∈ log, query.compiledKey? = some key := by
  rw [hledger.keys, List.mem_reverse, compiledKeys, List.mem_filterMap]

theorem empty : Ledger [] [] (Cache.empty : Cache κ) where
  keys := rfl
  served _ := iff_of_false List.not_mem_nil List.not_mem_nil
  valid _ _ hmem := nomatch hmem
  once := .nil

/-- A request that asks nothing. -/
theorem append_unasked (hledger : Ledger log trace c)
    (hanswer : answer.isOk = true → p.key ∈ c.keys) :
    Ledger log (trace ++ [(.request p, answer)]) c := by
  refine ⟨hledger.keys, fun key => ?_, hledger.valid, hledger.once⟩
  rw [mem_servedKeys_append_singleton, hledger.served]
  constructor
  · rintro (hserved | ⟨hok, rfl⟩)
    · exact hserved
    · exact hanswer hok
  · exact .inl

theorem once_append (hledger : Ledger log trace c) (hnew : p.key ∉ c.keys) (compiled : Bool) :
    (log ++ [Query.compile p compiled]).Pairwise fun earlier later => ¬ later.Repeats earlier := by
  rw [List.pairwise_append]
  refine ⟨hledger.once, List.pairwise_singleton _ _, fun earlier hearlier later hlater => ?_⟩
  cases List.mem_singleton.1 hlater
  rintro ⟨key, hkey, hasked⟩
  cases hasked
  exact hnew (hledger.mem_keys_iff.2 ⟨earlier, hearlier, hkey⟩)

theorem valid_append (hledger : Ledger log trace c) (hvalid : p.validate = .ok ())
    (compiled : Bool) :
    ∀ q compiled', .compile q compiled' ∈ log ++ [.compile p compiled] → q.validate = .ok () := by
  intro q compiled' hmem
  rcases List.mem_append.1 hmem with hold | hnew
  · exact hledger.valid q compiled' hold
  · cases List.mem_singleton.1 hnew
    exact hvalid

/-- A request that the engine rejects. -/
theorem append_rejected (hledger : Ledger log trace c) (hvalid : p.validate = .ok ())
    (hnew : p.key ∉ c.keys) (hanswer : answer.isOk = false) :
    Ledger (log ++ [.compile p false]) (trace ++ [(.request p, answer)]) c := by
  refine ⟨?_, fun key => ?_, hledger.valid_append hvalid false, hledger.once_append hnew false⟩
  · rw [hledger.keys, compiledKeys_append]
    exact congrArg List.reverse (List.append_nil _).symm
  · simp [mem_servedKeys_append_singleton, hledger.served, hanswer]

/-- A request that is compiled. -/
theorem append_compiled (hledger : Ledger log trace c) (hvalid : p.validate = .ok ())
    (hnew : p.key ∉ c.keys) (hanswer : answer.isOk = true) (artifact : κ) :
    Ledger (log ++ [.compile p true]) (trace ++ [(.request p, answer)])
      (c.insert p.key artifact) := by
  have hkeys : (c.insert p.key artifact).keys = p.key :: c.keys := rfl
  refine ⟨?_, fun key => ?_, hledger.valid_append hvalid true, hledger.once_append hnew true⟩
  · rw [hkeys, hledger.keys, compiledKeys_append, List.reverse_append]
    rfl
  · simp [mem_servedKeys_append_singleton, hledger.served, hanswer, hkeys, or_comm]

theorem append_request (engine : Engine Float σ κ) (hledger : Ledger log trace c) (s : σ)
    (hanswer : answer.isOk = (c.handle engine p s).1.result.isOk) :
    Ledger (log ++ c.asked engine p s) (trace ++ [(.request p, answer)])
      (c.handle engine p s).2.1 := by
  rcases c.request_cases engine p s with ⟨hfail, -, hasked, hcache⟩ | ⟨hvalid,
    ⟨hknown, -, hasked, hcache⟩ | ⟨hnew, ⟨hfail, hasked, hcache⟩ | ⟨artifact, hok, hasked, hcache⟩⟩⟩
  · rw [hasked, hcache, List.append_nil]
    refine hledger.append_unasked fun hok => ?_
    rw [hanswer, hfail] at hok
    cases hok
  · rw [hasked, hcache, List.append_nil]
    exact hledger.append_unasked fun _ => hknown
  · rw [hasked, hcache]
    exact hledger.append_rejected hvalid hnew (hanswer.trans hfail)
  · rw [hasked, hcache]
    exact hledger.append_compiled hvalid hnew (hanswer.trans hok) artifact

/-- Calls are not entered. -/
theorem append_call (hledger : Ledger log trace c) {solves : List (Query Float)}
    (hsolves : ∀ query ∈ solves, ∃ source input, query = .solve source input) (number : Nat)
    (call : Call Float) (answer : Answer) :
    Ledger (log ++ solves) (trace ++ [(.call number call, answer)]) c := by
  have hkeys : compiledKeys solves = [] := by
    rw [compiledKeys, List.filterMap_eq_nil_iff]
    intro query hquery
    obtain ⟨source, input, rfl⟩ := hsolves query hquery
    rfl
  have hserved : servedKeys [(.call number call, answer)] = [] := rfl
  refine ⟨?_, fun key => ?_, fun p compiled hmem => ?_, ?_⟩
  · rw [hledger.keys, compiledKeys_append, hkeys, List.append_nil]
  · rw [← hledger.served, servedKeys_append, hserved, List.append_nil]
  · rcases List.mem_append.1 hmem with hold | hsolve
    · exact hledger.valid p compiled hold
    · obtain ⟨_, _, heq⟩ := hsolves _ hsolve
      cases heq
  · -- no solve asks for a key
    have hunasked (later : Query Float) (hlater : later ∈ solves) (earlier : Query Float) :
        ¬ later.Repeats earlier := by
      obtain ⟨source, input, rfl⟩ := hsolves later hlater
      rintro ⟨key, -, hasked⟩
      cases hasked
    exact List.pairwise_append.2 ⟨hledger.once,
      List.pairwise_of_forall_mem_list fun earlier _ later hlater => hunasked later hlater earlier,
      fun earlier _ later hlater => hunasked later hlater earlier⟩

/-- A cache has as many entries as there were compilations, and as there are served keys. -/
theorem size_eq (hledger : Ledger log trace c) :
    c.size = (compiledKeys log).length ∧ c.size = (servedKeys trace).toFinset.card := by
  have hsize : c.size = c.keys.length := (List.length_map _).symm
  have hnodup : c.keys.Nodup := by
    rw [hledger.keys, List.nodup_reverse]
    refine hledger.once.filterMap _ fun earlier later hnot key hkey key' hkey' => ?_
    rintro rfl
    exact hnot ⟨key, hkey, Query.askedKey?_of_compiledKey? hkey'⟩
  have hserved : (servedKeys trace).toFinset = c.keys.toFinset := by
    ext key
    rw [List.mem_toFinset, List.mem_toFinset, hledger.served]
  rw [hserved, List.toFinset_card_of_nodup hnodup, hsize]
  exact ⟨by rw [hledger.keys, List.length_reverse], rfl⟩

end Ledger

namespace Session

section Runs

variable [Spectral Float] {engine : Engine Float σ κ}

theorem isOk_step_request (session : Session κ σ) (p : Problem Float) :
    (session.step engine (.request p)).1.isOk =
      (session.cache.handle engine p session.state).1.result.isOk := by
  simp only [step, Answer.isOk]
  cases (session.cache.handle engine p session.state).1.result <;> rfl

theorem ledger_run (s : σ) (events : List Event) :
    Ledger (queries engine s events) ((start (κ := κ) s).run engine events).1
      ((start s).run engine events).2.cache := by
  induction events using List.reverseRecOn with
  | nil => exact Ledger.empty
  | append_singleton events event ih =>
      rw [run_append_singleton]
      cases event with
      | request p =>
          rw [queries_append_request]
          exact ih.append_request engine _ (isOk_step_request _ p)
      | call number call =>
          obtain ⟨solves, hqueries, hsolves⟩ := queries_append_call engine s events number call
          rw [hqueries, cache_step_call]
          exact ih.append_call hsolves number call _

theorem find?_run_of_find? {session : Session κ σ} {key : Bytes} {artifact : κ}
    (hfind : session.cache.find? key = some artifact) (events : List Event) :
    (session.run engine events).2.cache.find? key = some artifact := by
  refine run_induction (P := fun _ now => now.cache.find? key = some artifact) hfind ?_ events
  intro _ now event hnow
  cases event with
  | request p => exact Cache.find?_handle_of_find? engine hnow p now.state
  | call number call =>
      rw [cache_step_call]
      exact hnow

/-- After any events, the cache has as many entries as the engine has compiled problems, which is
the number of different keys that handles were issued for. The engine has been asked for valid
problems only, and never again for a key that it had compiled. A request that fails leaves the cache
as it is, and no entry is ever replaced or removed. A valid problem gets a handle without a
compilation if a request with its key has been served, as it has been if one was served for a
problem with the same baked parts. Otherwise the engine is asked for it once, even if requests with
its key have failed before. -/
theorem compiles_once {s : σ} {events : List Event} {trace : List (Event × Answer)}
    {session : Session κ σ} (hrun : (start s).run engine events = (trace, session)) :
    (session.cache.size = (compiledKeys (queries engine s events)).length ∧
      session.cache.size = (servedKeys trace).toFinset.card) ∧
    ((∀ p compiled, .compile p compiled ∈ queries engine s events → p.validate = .ok ()) ∧
      (queries engine s events).Pairwise fun earlier later => ¬ later.Repeats earlier) ∧
    ((∀ p, (session.step engine (.request p)).1.isOk = false →
        (session.step engine (.request p)).2.cache = session.cache) ∧
      ∀ key artifact, session.cache.find? key = some artifact →
        ∀ later, (session.run engine later).2.cache.find? key = some artifact) ∧
    (∀ p, p.validate = .ok () →
      if p.key ∈ servedKeys trace then
        (session.step engine (.request p)).1.isOk = true ∧
          queries engine s (events ++ [.request p]) = queries engine s events
      else
        ∃ compiled, (session.step engine (.request p)).1.isOk = compiled ∧
          queries engine s (events ++ [.request p]) =
            queries engine s events ++ [.compile p compiled]) ∧
    ∀ d answer, (.request d, answer) ∈ trace → answer.isOk = true →
      ∀ q, q.validate = .ok () → q.baked = d.baked →
        (session.step engine (.request q)).1.isOk = true ∧
          queries engine s (events ++ [.request q]) = queries engine s events := by
  have hledger : Ledger (queries engine s events) ((start s).run engine events).1
      ((start s).run engine events).2.cache := ledger_run s events
  rw [hrun] at hledger
  have hasked (p : Problem Float) : queries engine s (events ++ [.request p]) =
      queries engine s events ++ session.cache.asked engine p session.state := by
    rw [queries_append_request, hrun]
  have hserved (p : Problem Float) (hvalid : p.validate = .ok ())
      (hkey : p.key ∈ servedKeys trace) :
      (session.step engine (.request p)).1.isOk = true ∧
        queries engine s (events ++ [.request p]) = queries engine s events := by
    rw [isOk_step_request, hasked]
    rcases session.cache.request_cases engine p session.state with ⟨-, hinvalid, -⟩ | ⟨-,
      ⟨-, hok, hnone, -⟩ | ⟨hnew, -⟩⟩
    · exact absurd hvalid hinvalid
    · rw [hnone, List.append_nil]
      exact ⟨hok, rfl⟩
    · exact absurd ((hledger.served _).1 hkey) hnew
  refine ⟨hledger.size_eq, ⟨hledger.valid, hledger.once⟩,
    ⟨fun p hfail => ?_, fun key artifact hfind => find?_run_of_find? hfind⟩, fun p hvalid => ?_,
    fun d answer hmem hok q hvalid hbaked => ?_⟩
  · rw [isOk_step_request] at hfail
    change (session.cache.handle engine p session.state).2.1 = session.cache
    rcases session.cache.request_cases engine p session.state with ⟨-, -, -, hcache⟩ | ⟨-,
      ⟨-, -, -, hcache⟩ | ⟨-, ⟨-, -, hcache⟩ | ⟨_, hok, -⟩⟩⟩
    · exact hcache
    · exact hcache
    · exact hcache
    · cases hfail.symm.trans hok
  · split_ifs with hkey
    · exact hserved p hvalid hkey
    · rw [isOk_step_request, hasked]
      rcases session.cache.request_cases engine p session.state with ⟨-, hinvalid, -⟩ | ⟨-,
        ⟨hknown, -⟩ | ⟨-, ⟨hfail, hnew, -⟩ | ⟨_, hok, hnew, -⟩⟩⟩
      · exact absurd hvalid hinvalid
      · exact absurd ((hledger.served _).2 hknown) hkey
      · exact ⟨false, hfail, by rw [hnew]⟩
      · exact ⟨true, hok, by rw [hnew]⟩
  · have hkey : d.key = q.key := by
      rw [Problem.key_inj, ← d.keyForm_baked, ← q.keyForm_baked, hbaked]
    exact hserved q hvalid (mem_servedKeys.2 ⟨d, answer, hmem, hok, hkey⟩)

end Runs

/-- The tank is compiled once, whatever its level. -/
theorem compiles_once_tank :
    ∃ trace session, (start 0).run Tank.engine [.request Tank.problem, .request Tank.full] =
        (trace, session) ∧ session.cache.size = 1 ∧
      queries Tank.engine 0 [.request Tank.problem, .request Tank.full, .request Tank.full] =
        queries Tank.engine 0 [.request Tank.problem, .request Tank.full] := by
  have hrun := run_requests_of_key_eq Tank.validate_problem Tank.validate_full Tank.key_full
    (rfl : Tank.engine.compile Tank.problem 0 = _)
  obtain ⟨⟨-, hsize⟩, -, -, -, hagain⟩ := compiles_once hrun
  obtain ⟨-, hqueries⟩ := hagain Tank.problem _ (List.mem_cons_self ..) rfl Tank.full
    Tank.validate_full Tank.baked_full
  refine ⟨_, _, hrun, hsize.trans ?_, hqueries⟩
  simp [servedKeys, Answer.isOk, Except.isOk, Except.toBool, Tank.key_full]

end Session

end RecedingHorizon
