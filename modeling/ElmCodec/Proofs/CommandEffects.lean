import ElmCodec.Command.Run
import ElmCodec.Proofs.Outcomes

/-!
# What a command leaves behind

Reading and making directories leave every file and the output alone, and so does
a write that fails. So a command that fails has changed no file and printed
nothing; one that succeeds has printed its result, or has put it into one file.
-/

namespace ElmCodec.Command

-- ---------------------------------------------------------------------------
-- Files
-- ---------------------------------------------------------------------------

namespace Files

variable {store after : Files} {place other found : Place} {path : String} {bytes : ByteArray}

theorem content?_put : (store.put place bytes).content? other =
    if other = place then some bytes else store.content? other :=
  Members.lookup_set place bytes store.files other

theorem isDirectory_put (h : store.isDirectory other = true) :
    (store.put place bytes).isDirectory other = true := by
  simp only [isDirectory, Bool.or_eq_true] at h ⊢
  refine h.imp_right fun hany => ?_
  obtain ⟨file, hf, habove⟩ := List.any_eq_true.mp hany
  have hkey : file.1 ∈ (Members.set place bytes store.files).map (·.1) := by
    have hold : file.1 ∈ store.files.map (·.1) := List.mem_map_of_mem hf
    rw [Members.keys_set]
    split
    · exact hold
    · exact List.mem_append_left _ hold
  obtain ⟨kept, hk, he⟩ := List.mem_map.mp hkey
  exact List.any_eq_true.mpr ⟨kept, hk, he ▸ habove⟩

theorem enter_put {component : String} (h : store.enter other component = .ok found) :
    (store.put place bytes).enter other component = .ok found := by
  unfold enter at h ⊢
  cases hd : store.isDirectory other with
  | false => simp [hd] at h
  | true => simpa [hd, isDirectory_put hd] using h

theorem foldlM_enter_put {components : List String}
    (h : components.foldlM store.enter other = .ok found) :
    components.foldlM (store.put place bytes).enter other = .ok found := by
  induction components generalizing other with
  | nil => exact h
  | cons component rest ih =>
    rw [List.foldlM_cons, bind_ok] at h ⊢
    obtain ⟨middle, hm, hr⟩ := h
    exact ⟨middle, enter_put hm, ih hr⟩

theorem resolve_put (h : store.resolve path = .ok found) :
    (store.put place bytes).resolve path = .ok found := by
  unfold resolve at h ⊢
  split at h <;> exact foldlM_enter_put h

theorem dropWhile_slash (h : path.toList.getLast? ≠ some '/') :
    String.ofList (path.toList.reverse.dropWhile (· = '/')).reverse = path := by
  have hdrop : path.toList.reverse.dropWhile (· = '/') = path.toList.reverse := by
    rw [← List.head?_reverse] at h
    cases hr : path.toList.reverse with
    | nil => rfl
    | cons c rest =>
      rw [hr] at h
      exact List.dropWhile_cons_of_neg (by simpa using h)
  rw [hdrop, List.reverse_reverse, String.ofList_toList]

theorem write_ok (h : store.write path bytes = .ok after) :
    ∃ place, after.resolve path = .ok place ∧ after = store.put place bytes := by
  unfold write at h
  obtain ⟨place, hr, h⟩ := bind_ok.mp h
  split at h
  · cases h
  · rename_i hend
    cases h
    simp only [Bool.or_eq_true, decide_eq_true_eq, not_or] at hend
    rw [dropWhile_slash hend.1] at hr
    exact ⟨place, resolve_put hr, rfl⟩

theorem read_put (h : (store.put place bytes).resolve path = .ok place) :
    (store.put place bytes).read path = .ok bytes := by
  rw [read, bind_ok]
  refine ⟨place, h, ?_⟩
  rw [content?_put, if_pos rfl]

theorem files_makeDirectory (h : store.makeDirectory path = .ok after) :
    after.files = store.files := by
  unfold makeDirectory at h
  obtain ⟨place, -, h⟩ := bind_ok.mp h
  split at h
  · cases h
  · cases h
    rfl

end Files

-- ---------------------------------------------------------------------------
-- Actions that change no file
-- ---------------------------------------------------------------------------

namespace World

/-- No file and nothing printed is different. Directories may have been made. -/
structure Keeps (before after : World) : Prop where
  files : after.files.files = before.files.files
  printed : after.printed = before.printed

theorem Keeps.refl (world : World) : world.Keeps world := ⟨rfl, rfl⟩

theorem Keeps.trans {before middle after : World} (hf : before.Keeps middle)
    (hs : middle.Keeps after) : before.Keeps after :=
  ⟨hs.files.trans hf.files, hs.printed.trans hf.printed⟩

theorem Keeps.content? {before after : World} (h : before.Keeps after) (place : Place) :
    after.files.content? place = before.files.content? place :=
  congrArg (List.lookup place) h.files

end World

/-- An action that keeps every file, whatever it returns. -/
def Quiet (action : StateM World α) : Prop :=
  ∀ world : World, world.Keeps (action.run world).2

namespace Quiet

theorem pure (a : α) : Quiet (Pure.pure a) := World.Keeps.refl

theorem bind {action : StateM World α} {next : α → StateM World β} (ha : Quiet action)
    (hn : ∀ a, Quiet (next a)) : Quiet (action >>= next) :=
  fun world => (ha world).trans (hn (action.run world).1 (action.run world).2)

theorem readFile (path : String) : Quiet (Host.readFile path) := World.Keeps.refl

theorem makeDirectory (path : String) : Quiet (Host.makeDirectory path) := by
  intro world
  change world.Keeps (world.update (world.files.makeDirectory path)).2
  cases hm : world.files.makeDirectory path with
  | ok files => exact ⟨Files.files_makeDirectory hm, rfl⟩
  | error fault => exact .refl world

theorem isDirectory (path : String) : Quiet (Host.isDirectory path) := by
  refine .bind (.readFile path) fun result => ?_
  split <;> exact .pure _

theorem unlessDirectory (path : String) (fault : FileFault) :
    Quiet (Host.unlessDirectory path fault) := by
  refine .bind (.isDirectory path) fun there => ?_
  split <;> exact .pure _

theorem ensureDirectory (path : String) : Quiet (Host.ensureDirectory path) := by
  refine .bind (.makeDirectory path) fun result => ?_
  split
  · exact .pure _
  · exact .unlessDirectory path _

theorem makeDirectories (fuel : Nat) (path : String) :
    Quiet (Host.makeDirectories fuel path) := by
  induction fuel generalizing path with
  | zero =>
    unfold Host.makeDirectories
    split
    · exact .pure _
    · exact .ensureDirectory path
  | succ fuel ih =>
    unfold Host.makeDirectories
    split
    · exact .pure _
    · refine .bind (.makeDirectory path) fun result => ?_
      split
      · exact .pure _
      · refine .bind (ih _) fun above => ?_
        split
        · exact .ensureDirectory path
        · exact .pure _
      · exact .unlessDirectory path _

end Quiet

-- ---------------------------------------------------------------------------
-- Requests
-- ---------------------------------------------------------------------------

namespace World

def run (world : World) (action : ExceptT Failure (StateM World) α) : Except Failure α × World :=
  (ExceptT.run action).run world

def contents (world : World) : Source → Except Failure ByteArray
  | .input => .ok world.input
  | .file path => (world.files.read path).mapError (.unreadable path)

theorem run_mk (world : World) (action : StateM World (Except Failure α)) :
    world.run (ExceptT.mk action) = action.run world := rfl

theorem run_bind (world : World) (action : ExceptT Failure (StateM World) α)
    (next : α → ExceptT Failure (StateM World) β) : world.run (action >>= next) =
      match world.run action with
      | (.ok a, after) => after.run (next a)
      | (.error failure, after) => (.error failure, after) := by
  refine (ElmCodec.run_bind action next world).trans ?_
  unfold run
  cases (ExceptT.run action).run world with
  | mk outcome after => cases outcome <;> rfl

theorem run_readSource (world : World) (request : Request) :
    world.run request.readSource = (world.contents request.source, world) := by
  unfold Request.readSource
  cases request.source <;> rfl

theorem run_modifyGet (f : σ → α × σ) (state : σ) :
    (modifyGet f : StateM σ α).run state = f state := rfl

theorem run_writeFile (path text : String) (world : World) :
    (Host.writeFile path text : StateM World (Except FileFault Unit)).run world =
      world.update (world.files.write path text.toUTF8) :=
  run_modifyGet (fun world => world.update (world.files.write path text.toUTF8)) world

end World

namespace Request

theorem run_run (request : Request) (engine : Jq.Engine) (world : World) :
    world.run (request.run engine) =
      match world.contents request.source >>= request.result engine with
      | .ok text => world.run (request.writeResult text)
      | .error failure => (.error failure, world) := by
  unfold run
  rw [World.run_bind, World.run_readSource]
  cases world.contents request.source with
  | error failure => rfl
  | ok bytes =>
    change world.run (_ >>= _) = match request.result engine bytes with
      | .ok text => world.run (request.writeResult text)
      | .error failure => (.error failure, world)
    rw [World.run_bind]
    cases request.result engine bytes <;> rfl

theorem quiet_makeParent (path : String) :
    Quiet (ExceptT.run (makeParent path : ExceptT Failure (StateM World) Unit)) := by
  unfold makeParent
  split
  · exact .pure _
  · exact .bind (.makeDirectories _ _) fun _ => .pure _

/-- How writing a result ends. -/
inductive Ends (text : String) (world : World) : Option String → Except Failure Unit × World → Prop
  | printed :
      Ends text world none (.ok (), { world with printed := world.printed ++ (text ++ "\n") })
  | written : world.Keeps next → next.files.write path text.toUTF8 = .ok files →
      Ends text world (some path) (.ok (), { next with files })
  | failed {reason : Failure} : world.Keeps after →
      Ends text world (some path) (.error reason, after)

theorem ends_writeResult (request : Request) (text : String) (world : World) :
    Ends text world request.out (world.run (request.writeResult text)) := by
  unfold writeResult
  cases request.out with
  | none => exact .printed
  | some path =>
    have hkeeps : world.Keeps (world.run (makeParent path)).2 := quiet_makeParent path world
    change Ends text world (some path) (world.run (makeParent path >>= fun _ => _))
    rw [World.run_bind]
    cases hp : world.run (makeParent path) with
    | mk outcome next =>
      rw [hp] at hkeeps
      cases outcome with
      | error failure => exact .failed hkeeps
      | ok made =>
        change Ends text world (some path) (next.run (ExceptT.mk (_ >>= _)))
        rw [World.run_mk, StateT.run_bind, World.run_writeFile]
        cases hw : next.files.write path text.toUTF8 with
        | ok files => exact .written hkeeps hw
        | error fault => exact .failed hkeeps

theorem Ends.written_eq (h : Ends text world (some path) (.ok (), after)) :
    after.printed = world.printed ∧ after.files.read path = .ok text.toUTF8 ∧
      ∃ place, after.files.resolve path = .ok place ∧
        ∀ other, other ≠ place → after.files.content? other = world.files.content? other := by
  cases h with
  | @written next _ files hk hw =>
    obtain ⟨place, hplace, rfl⟩ := Files.write_ok hw
    refine ⟨hk.printed, Files.read_put hplace, place, hplace, fun other hne => ?_⟩
    rw [← hk.content? other]
    exact Files.content?_put.trans (if_neg hne)

theorem mapError_ok {result : Except ε α} {f : ε → δ} :
    result.mapError f = .ok a ↔ result = .ok a := by
  cases result <;> simp [Except.mapError]

theorem result_ok_iff {request : Request} {engine : Jq.Engine} {bytes : ByteArray} {text : String} :
    request.result engine bytes = .ok text ↔ ∃ document artifacts,
      request.document engine bytes = .ok document ∧
        Artifacts.ofJson request.options document = .ok artifacts ∧
        text = request.render artifacts := by
  simp only [result, bind_ok, mapError_ok]
  constructor
  · rintro ⟨document, hd, artifacts, ha, h⟩
    exact ⟨document, artifacts, hd, ha, (Except.ok.inj h).symm⟩
  · rintro ⟨document, artifacts, hd, ha, rfl⟩
    exact ⟨document, hd, artifacts, ha, rfl⟩

section
variable {request : Request} {engine : Jq.Engine} {world after : World}

theorem run_error {reason : Failure} (h : world.run (request.run engine) = (.error reason, after)) :
    world.Keeps after := by
  rw [run_run] at h
  split at h
  · rename_i text _
    have hends := ends_writeResult request text world
    rw [h] at hends
    generalize request.out = out at hends
    cases hends with
    | failed hk => exact hk
  · cases h
    exact .refl world

theorem run_ok (h : world.run (request.run engine) = (.ok (), after)) :
    ∃ bytes document artifacts, world.contents request.source = .ok bytes ∧
      request.document engine bytes = .ok document ∧
      Artifacts.ofJson request.options document = .ok artifacts ∧
      Ends (request.render artifacts) world request.out (.ok (), after) := by
  rw [run_run] at h
  split at h
  · rename_i text hresult
    obtain ⟨bytes, hbytes, hr⟩ := bind_ok.mp hresult
    obtain ⟨document, artifacts, hd, ha, rfl⟩ := result_ok_iff.mp hr
    exact ⟨bytes, document, artifacts, hbytes, hd, ha,
      h ▸ ends_writeResult request (request.render artifacts) world⟩
  · cases h

end

/-- A request that fails has changed no file and printed nothing. One that succeeds has
either printed the text of what it selected or put it into the file that its path leads
to, and changed no other file. Any engine may have run its filter. -/
theorem run_effects (request : Request) (engine : Jq.Engine) (world after : World) :
    (∀ reason, world.run (request.run engine) = (.error reason, after) →
      (∀ place, after.files.content? place = world.files.content? place) ∧
        after.printed = world.printed) ∧
    (world.run (request.run engine) = (.ok (), after) → ∃ bytes document artifacts,
      world.contents request.source = .ok bytes ∧
        request.document engine bytes = .ok document ∧
        Artifacts.ofJson request.options document = .ok artifacts ∧
        (request.out = none →
          (∀ place, after.files.content? place = world.files.content? place) ∧
            after.printed = world.printed ++ (request.render artifacts ++ "\n")) ∧
        ∀ path, request.out = some path →
          after.printed = world.printed ∧
            after.files.read path = .ok (request.render artifacts).toUTF8 ∧
            ∃ place, after.files.resolve path = .ok place ∧
              ∀ other, other ≠ place →
                after.files.content? other = world.files.content? other) := by
  constructor
  · intro reason h
    have hk := run_error h
    exact ⟨hk.content?, hk.printed⟩
  · intro h
    obtain ⟨bytes, document, artifacts, hbytes, hd, ha, hends⟩ := run_ok h
    refine ⟨bytes, document, artifacts, hbytes, hd, ha, fun ho => ?_, fun path ho => ?_⟩
    · rw [ho] at hends
      cases hends with
      | printed => exact ⟨fun _ => rfl, rfl⟩
    · rw [ho] at hends
      exact hends.written_eq

/-- A member of the document in a file, to be written to the same file. -/
def inPlace (pointer : String) : Request where
  output := .elm "Main"
  input := some "a.json"
  pointer := some pointer
  filter := some "."
  options := {}
  out := some "a.json"

def held : World where
  files := { files := [(["a.json"], "\x7b\"k\":true\x7d".toUTF8)] }
  input := .empty

/-- A pointer without a match leaves the file, and one with a match has it replaced. -/
theorem run_effects_inPlace : ∃ kept after,
    held.run ((inPlace "/x").run Jq.Filter.engine) =
        (.error (.noMatch "/x" (.file "a.json")), kept) ∧
      kept.files.content? ["a.json"] = held.files.content? ["a.json"] ∧ kept.printed = "" ∧
      held.run ((inPlace "/k").run Jq.Filter.engine) = (.ok (), after) ∧ after.printed = "" ∧
      ∃ artifacts, after.files.read "a.json" = .ok ((inPlace "/k").render artifacts).toUTF8 := by
  have herror : (held.run ((inPlace "/x").run Jq.Filter.engine)).1 =
      .error (.noMatch "/x" (.file "a.json")) := by decide +kernel
  have hok : (held.run ((inPlace "/k").run Jq.Filter.engine)).1 = .ok () := by decide +kernel
  obtain ⟨hfiles, hprinted⟩ := (run_effects (inPlace "/x") Jq.Filter.engine held _).1 _
    (Prod.ext herror rfl)
  obtain ⟨_, _, artifacts, -, -, -, -, hout⟩ :=
    (run_effects (inPlace "/k") Jq.Filter.engine held _).2 (Prod.ext hok rfl)
  obtain ⟨hquiet, hread, -⟩ := hout "a.json" rfl
  exact ⟨_, _, Prod.ext herror rfl, hfiles _, hprinted, Prod.ext hok rfl, hquiet, artifacts, hread⟩

end Request

end ElmCodec.Command
