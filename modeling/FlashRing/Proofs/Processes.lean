import FlashRing.Command.Run
import FlashRing.Proofs.Transparency

/-!
One process for each command, all on one image file. Main statement: to start anew between calls
leaves no trace on any store that was formatted, in memory or in an image file, and so the command
line prints and leaves what one long session would.
-/

namespace FlashRing

/-- What the command line makes of an answer and of the store that is left. -/
def Command.outcome (command : Command) : Except Error Reply × Store Image → Outcome
  | (.ok reply, after) => .success (command.lines after.active? reply)
  | (.error e, _) => .ofError e

/-- A process for each command, one after the other. -/
def Command.runAll (config : Config) (entry : HostEntry) :
    List Command → List (Outcome × HostEntry)
  | [] => []
  | command :: rest =>
    command.runOn config entry :: runAll config (command.runOn config entry).2 rest

/-- One session for all commands: what is printed for each, and the file that it leaves. -/
def Command.oneSession (store : Store Image) (commands : List Command) :
    List (Outcome × HostEntry) :=
  List.zipWith (fun command entry => (command.outcome entry, .file entry.2.device.content))
    commands (Store.journal (·.request.run) store commands)

/-- Every image file of the right length holds the words of some memory. -/
theorem Image.exists_ram {image : Image}
    (h : image.content.size = 4 * image.geometry.totalWords) :
    ∃ ram : Ram, ram.image = image ∧ ram.power = .steady := by
  refine ⟨{
    geometry := image.geometry
    words := FileContent.decode image.content image.geometry.totalWords
    wear := Array.replicate image.geometry.pageCount 0
    mutations := 0
    power := .steady
    size_words := FileContent.size_decode ..
    size_wear := Array.size_replicate }, ?_, rfl⟩
  exact congrArg (Image.mk image.geometry) (FileContent.encode_decode h)

theorem Image.shape_of_load {path : String} {geometry : Geometry} {entry : HostEntry}
    {image : Image} (h : load path geometry entry = .ok image) :
    image.geometry = geometry ∧ image.content.size = 4 * geometry.totalWords := by
  unfold load at h
  dsimp only at h
  split at h
  next => cases h
  next =>
    cases entry with
    | missing =>
      cases h
      exact ⟨rfl, Array.size_replicate⟩
    | file content =>
      dsimp only at h
      split at h
      next hsize =>
        cases h
        exact ⟨rfl, hsize⟩
      next => cases h
    | directory => cases h
    | unreachable => cases h

namespace Store

variable {memory : Store Ram} {config : Config}

theorem InService.hosts (h : memory.InService) :
    (imaging memory.config memory.ring).Hosts memory := by
  obtain ⟨contents, active, count, used, hs, -⟩ := h.serves
  refine ⟨rfl, rfl, ⟨hs.attached.fits, h.steady⟩, hs.attached, fun roles hroles => ?_⟩
  rw [hs.roles] at hroles
  cases hroles
  exact ⟨hs.valid.1, fun _ hnone => by cases hnone⟩

/-- What is called on the image is called on the memory, and does not fail for the device. -/
theorem InService.call (h : memory.InService) (path : String) (call : Call) :
    answer (call.run (reopenImage path)) (memory.over Ram.image) =
        answer (call.run reattach) memory ∧
      left (call.run (reopenImage path)) (memory.over Ram.image) =
        (left (call.run reattach) memory).over Ram.image ∧
      (left (call.run reattach) memory).InService ∧
      (imaging memory.config memory.ring).Hosts (left (call.run reattach) memory) ∧
      isCut (answer (call.run reattach) memory) = false := by
  have hreopen : (imaging memory.config memory.ring).Matches reattach (reopenImage path) :=
    reopenImage_matches path
  obtain ⟨hanswer, hleft, hhosts, hcut⟩ := (Counterpart.Agrees.call hreopen call).ends h.hosts
  refine ⟨hanswer, hleft, ?_, hhosts, hcut⟩
  cases call with
  | ask request => exact Keeps.request request memory h
  | restart =>
    have hrun : Call.run reattach .restart memory = .ok .done memory :=
      IsServing.pause h.serves rfl
    rwa [left, hrun]

/-- The image file holds what the memory under a store in service does. -/
def ServesImage (store : Store Image) : Prop :=
  ∃ memory : Store Ram, memory.InService ∧ store = memory.over Ram.image

theorem ServesImage.undisturbed {store : Store Image} (h : store.ServesImage) (path : String)
    (calls : List Call) : Undisturbed (reopenImage path) store calls := by
  have hpause : ∀ (store : Store Image) (call : Call), store.ServesImage → call.isPause = true →
      call.run (reopenImage path) store = .ok .done store := by
    rintro _ call ⟨memory, hs, rfl⟩ hp
    exact (Counterpart.Agrees.call (reopenImage_matches path) call).run_ok hs.hosts
      (IsServing.pause hs.serves hp)
  have hcall : ∀ (store : Store Image) (call : Call), store.ServesImage →
      (left (call.run (reopenImage path)) store).ServesImage ∧
        isCut (answer (call.run (reopenImage path)) store) = false := by
    rintro _ call ⟨memory, hs, rfl⟩
    obtain ⟨hanswer, hleft, hafter, -, hcut⟩ := hs.call path call
    exact ⟨⟨_, hafter, hleft⟩, hanswer ▸ hcut⟩
  exact undisturbed_of_keeps hpause (fun store call hs _ _ => (hcall store call hs).1) h
    (forall_mem_journal (fun store call hs => hcall store call hs) h _)

/-- A store on an image file is one on memory that holds the words of the file. -/
theorem exists_memory_of_openImage {entry after : HostEntry} {store : Store Image}
    (h : openImage config entry = (.ok store, after)) :
    ∃ memory : Store Ram, attach memory.device config = .ok memory ∧
      memory.device.power = .steady ∧ memory.device.geometry = config.imageGeometry ∧
      store = memory.over Ram.image := by
  unfold openImage at h
  cases hload : Image.load config.imagePath config.imageGeometry entry with
  | error e =>
    rw [hload] at h
    cases h
  | ok image =>
    rw [hload] at h
    obtain ⟨hgeometry, hsize⟩ := Image.shape_of_load hload
    obtain ⟨ram, rfl, hpower⟩ := Image.exists_ram (hgeometry ▸ hsize)
    have hattach := (Prod.mk.inj h).1
    rw [attach_over rfl] at hattach
    cases hmemory : attach ram config with
    | error e =>
      rw [hmemory] at hattach
      cases hattach
    | ok memory =>
      rw [hmemory] at hattach
      have hdevice := (parts_of_attach hmemory).1
      refine ⟨memory, hdevice ▸ hmemory, hdevice ▸ hpower, hdevice ▸ hgeometry, ?_⟩
      exact (Except.ok.inj hattach).symm

/-- The store that a process opens on the image file of a session. -/
def anew (memory : Store Ram) : Store Image :=
  Store.over Ram.image { memory with roles := none }

theorem InService.openImage_eq (h : memory.InService)
    (hg : memory.device.geometry = memory.config.imageGeometry) :
    openImage memory.config (.file (memory.over Ram.image).device.content) =
      (.ok memory.anew, .file (memory.over Ram.image).device.content) := by
  have hload := Image.load_image h.hosts.fine.1 memory.config.imagePath
  rw [hg] at hload
  have hattach : attach memory.device.image memory.config = .ok memory.anew := by
    rw [attach_over rfl, h.hosts.attached.attach_eq]
    rfl
  rw [openImage, device_over, hload]
  exact congrArg (fun result => (result, _)) hattach

theorem InService.hosts_anew (h : memory.InService) :
    (imaging memory.config memory.ring).Hosts { memory with roles := none } :=
  ⟨rfl, rfl, h.hosts.fine, h.hosts.attached, fun _ hnone => by cases hnone⟩

theorem perform_of_ready {δ : Type} [Device δ] {command : Command}
    (h : command.needsReadyStore = true) :
    (command.perform : StoreM δ Reply) = (do Store.init; command.request.run) := by
  rw [Command.perform, h]
  rfl

theorem perform_of_any {δ : Type} [Device δ] {command : Command}
    (h : command.needsReadyStore = false) :
    (command.perform : StoreM δ Reply) = command.request.run := by
  rw [Command.perform, h]
  rfl

/-- Formatting forgets the pages in use before all else. -/
theorem format_forgets {δ : Type} [Device δ] (store : Store δ) :
    Store.format { store with roles := none } = Store.format store := by
  have hwipe : wipe { store with roles := none } = wipe store := rfl
  unfold Store.format Store.fenced
  rw [hwipe]

/-- A process that starts its store, or empties it, does what the session does. -/
theorem InService.perform_anew (h : memory.InService) {command : Command}
    (hc : command ≠ .inspect) :
    command.perform memory.anew = command.request.run (memory.over Ram.image) := by
  obtain ⟨contents, active, count, used, hs, -⟩ := h.serves
  have hinit := (Counterpart.Agrees.init (c := imaging memory.config memory.ring)).run_ok
    h.hosts_anew hs.init_anew
  -- What needs a ready store starts it first, and that finds the store of the session.
  cases hready : command.needsReadyStore with
  | true =>
    rw [perform_of_ready hready]
    exact run_bind hinit fun _ => command.request.run
  | false =>
    rw [perform_of_any hready]
    cases command with
    | format =>
      have hformat : Store.format memory.anew = Store.format (memory.over Ram.image) :=
        format_forgets (memory.over Ram.image)
      refine (run_map _ _ _).trans (Eq.trans ?_ (run_map _ _ _).symm)
      rw [hformat]
    | inspect => exact absurd rfl hc
    | _ => cases hready

/-- A report asks for no page in use. -/
theorem InService.inspect_eq (h : memory.InService) :
    ∃ reports, Store.inspect memory.anew = .ok reports memory.anew ∧
      Store.inspect (memory.over Ram.image) = .ok reports (memory.over Ram.image) := by
  have hmatch := Counterpart.Agrees.inspect (c := imaging memory.config memory.ring)
  have hsession := hmatch.run_ok h.hosts (Performs.inspect h.hosts.attached.fits).run_nothing
  have hfresh := hmatch.run_ok h.hosts_anew
    (Performs.inspect h.hosts_anew.attached.fits).run_nothing
  exact ⟨_, hfresh, hsession⟩

/-- The process that carries out one command does what the command does in a session. -/
theorem InService.runOn (h : memory.InService)
    (hg : memory.device.geometry = memory.config.imageGeometry) (command : Command) :
    let session := memory.over Ram.image
    let final := left command.request.run session
    command.runOn memory.config (.file session.device.content) =
      (command.outcome (answer command.request.run session, final),
        .file final.device.content) := by
  dsimp only
  rw [Command.runOn, h.openImage_eq hg]
  dsimp only
  by_cases hc : command = .inspect
  · -- The lines of a report name no page in use, so the process need not know any.
    subst hc
    obtain ⟨reports, hfresh, hsession⟩ := h.inspect_eq
    have hprocess : Command.inspect.perform memory.anew = .ok (.reports reports) memory.anew := by
      rw [perform_of_any rfl]
      exact run_bind hfresh _
    have hrun : Command.inspect.request.run (memory.over Ram.image) =
        .ok (.reports reports) (memory.over Ram.image) := run_bind hsession _
    rw [hprocess, answer, left, hrun]
    rfl
  · rw [h.perform_anew hc, answer, left]
    cases command.request.run (memory.over Ram.image) <;> rfl

/-- The processes of several commands do what one session does. -/
theorem InService.runAll (h : memory.InService)
    (hg : memory.device.geometry = memory.config.imageGeometry) (commands : List Command) :
    Command.runAll memory.config (.file (memory.over Ram.image).device.content) commands =
      Command.oneSession (memory.over Ram.image) commands := by
  -- The memory after the first command is in service again, with the configuration and shape it had.
  induction commands generalizing memory with
  | nil => rfl
  | cons command rest ih =>
    obtain ⟨-, hleft, hafter, hhosts, -⟩ :=
      h.call memory.config.imagePath (.ask command.request)
    have hstep := h.runOn hg command
    have hnext : left command.request.run (memory.over Ram.image) =
        (left command.request.run memory).over Ram.image := hleft
    have hconfig : (left command.request.run memory).config = memory.config := hhosts.config
    have hshape : (left command.request.run memory).device.geometry = memory.config.imageGeometry :=
      hhosts.fine.1.symm.trans (h.hosts.fine.1.trans hg)
    have hrest := ih hafter (hshape.trans (congrArg Config.imageGeometry hconfig.symm))
    dsimp only at hstep
    rw [Command.runAll, Command.oneSession, journal, List.zipWith_cons_cons, hstep, hnext]
    rw [show (left (Call.run reattach (.ask command.request)) memory).config = memory.config
      from hconfig] at hrest
    exact congrArg (List.cons _) hrest

/-- An image file that was formatted holds what formatted memory does. -/
theorem exists_memory_of_format {entry after : HostEntry} {store formatted : Store Image}
    (ho : openImage config entry = (.ok store, after)) (hf : format store = .ok () formatted) :
    ∃ memory : Store Ram, memory.InService ∧ formatted = memory.over Ram.image ∧
      memory.config = config ∧ memory.device.geometry = config.imageGeometry := by
  obtain ⟨memory, ha, hp, hg, rfl⟩ := exists_memory_of_openImage ho
  have hfits : memory.ring.geometry = memory.device.geometry := (eq_of_attach ha).1.fits
  have hhosts : (imaging config memory.ring).Hosts memory :=
    Counterpart.hosts_of_attach ha rfl ⟨hfits, hp⟩
  rcases Counterpart.Agrees.format memory hhosts with
    ⟨_, final, hrun, hover, hfinal, -⟩ | ⟨e, final, -, hover, -⟩
  · rw [show format (memory.over Ram.image) = .ok () (final.over Ram.image) from hover] at hf
    cases hf
    exact ⟨final, inService_of_format hp ha hrun, rfl, hfinal.config,
      hfinal.fine.1.symm.trans (hfits.trans hg)⟩
  · rw [show format (memory.over Ram.image) = .error e (final.over Ram.image) from hover] at hf
    cases hf

/-- To start anew between calls leaves no trace on a store that was formatted, as long as its device
does not fail. In memory that is true of every word and every count; on an image file it makes one
process for each command the same as one session. -/
theorem restart_leaves_no_trace :
    (∀ {device : Ram} {config : Config} {store formatted : Store Ram},
      attach device config = .ok store → format store = .ok () formatted →
        ∀ calls : List Call,
          (∀ entry ∈ journal (Call.run reattach) formatted (calls.filter (!·.isPause)),
            isCut entry.1 = false) → Undisturbed reattach formatted calls) ∧
      ∀ {config : Config} {entry after : HostEntry} {store formatted : Store Image},
        openImage config entry = (.ok store, after) → format store = .ok () formatted →
          (∀ calls : List Call, Undisturbed (reopenImage config.imagePath) formatted calls) ∧
            ∀ commands : List Command,
              Command.runAll config (.file formatted.device.content) commands =
                Command.oneSession formatted commands := by
  constructor
  · intro device config store formatted ha hf calls hcut
    exact IsServing.undisturbed ⟨_, (serves_of_format ha hf).1⟩ hcut
  · intro config entry after store formatted ho hf
    obtain ⟨memory, hs, rfl, rfl, hg⟩ := exists_memory_of_format ho hf
    have himage : ServesImage (memory.over Ram.image) := ⟨memory, hs, rfl⟩
    exact ⟨himage.undisturbed memory.config.imagePath, hs.runAll hg⟩

/-- Calls with pauses in between, one of them after an array that is written in part. -/
def fitful : List Call :=
  [.ask (.write 5 1), .restart, .ask (.write 5 2), .ask .init, .ask (.writeArray 6 [1, 2, 3]),
    .restart, .ask (.readArray 6), .ask .compact, .restart, .ask .entries]

/-- A new image file with room for two pages of three slots each. -/
def smallImage : Store Image where
  device := ⟨⟨4, 2⟩, .erased 8⟩
  config := { ringPages := 2, pageWords := 4, devicePages := 2 }
  ring := small.ring
  roles := none

theorem restart_leaves_no_trace_small :
    attach (.fresh ⟨4, 2⟩) { ringPages := 2 } = .ok small ∧
      format small = .ok () (left format small) ∧
      (∀ entry ∈ journal (Call.run reattach) (left format small) (fitful.filter (!·.isPause)),
        isCut entry.1 = false) ∧
      Undisturbed reattach (left format small) fitful ∧
      (journal (Call.run reattach) (left format small) (fitful.filter (!·.isPause))).map (·.1) =
        [.ok .done, .ok .done, .error (.storeFull 4 3), .error (.partialArrayRead [1, 2] 3),
          .ok .done, .ok (.entries [(5, 2), (6, 0x0301), (7, 2)])] ∧
      openImage smallImage.config .missing = (.ok smallImage, .file (.erased 8)) ∧
      format smallImage = .ok () (left format smallImage) ∧
      Undisturbed (reopenImage "./eeprom.img") (left format smallImage) fitful ∧
      Command.runAll smallImage.config (.file (left format smallImage).device.content)
          [.set 5 1, .setArray 6 [1, 2, 3], .inspect, .list] =
        Command.oneSession (left format smallImage)
          [.set 5 1, .setArray 6 [1, 2, 3], .inspect, .list] := by
  have hcut : ∀ entry ∈ journal (Call.run reattach) (left format small)
      (fitful.filter (!·.isPause)), isCut entry.1 = false := by decide +kernel
  have hopen : openImage smallImage.config .missing = (.ok smallImage, .file (.erased 8)) := rfl
  have hformat : format smallImage = .ok () (left format smallImage) :=
    run_of_answer_ok (by decide +kernel)
  have h := restart_leaves_no_trace.2 hopen hformat
  exact ⟨attach_small, format_small, hcut,
    restart_leaves_no_trace.1 attach_small format_small fitful hcut, by decide +kernel, hopen,
    hformat, h.1 fitful, h.2 _⟩

end Store

end FlashRing
