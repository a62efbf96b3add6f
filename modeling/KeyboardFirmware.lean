import KeyboardFirmware.Config.Layouts
import KeyboardFirmware.Keystate.GetKeys
import KeyboardFirmware.Keystate.Layers
import KeyboardFirmware.Keystate.Report
import KeyboardFirmware.Macro.Playback
import KeyboardFirmware.Macro.Mixtures
import KeyboardFirmware.Compiler.FoldSound
import KeyboardFirmware.Compiler.Loops
import KeyboardFirmware.Compiler.Heights
import KeyboardFirmware.Vm.Globals
import KeyboardFirmware.Vm.Slots
import KeyboardFirmware.Vm.Restart
import KeyboardFirmware.Client.TriggersPresenter
import KeyboardFirmware.Client.KeyboardModel
import KeyboardFirmware.Storage.Operations
import KeyboardFirmware.Client.SetMacros
import KeyboardFirmware.Vm.Programs
import KeyboardFirmware.Vm.Comparison
import KeyboardFirmware.Keyboard.Remap
import KeyboardFirmware.Keyboard.Trigger
import KeyboardFirmware.Compiler.Scopes
import KeyboardFirmware.Keystate.Debounce
import KeyboardFirmware.Keystate.MouseReport
import KeyboardFirmware.Keyboard.MouseRates
import KeyboardFirmware.Keyboard.ProgramTrigger
import KeyboardFirmware.Vm.Timeouts
import KeyboardFirmware.Vm.Merge
import KeyboardFirmware.Storage.EndpointStream
import KeyboardFirmware.Storage.I2cEeprom
import KeyboardFirmware.Storage.I2cWrite
import KeyboardFirmware.Macro.HeapSort
import KeyboardFirmware.Macro.Defaults
import KeyboardFirmware.Macro.Faults
import KeyboardFirmware.Vm.ReportOps
import KeyboardFirmware.Keyboard.Printing
import KeyboardFirmware.Client.Disassembly
import KeyboardFirmware.Vm.Deployment
