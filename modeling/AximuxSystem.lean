import AximuxSystem.Foundation.Dict
import AximuxSystem.Foundation.Grouping
import AximuxSystem.Foundation.Text
import AximuxSystem.Foundation.Report
import AximuxSystem.Foundation.Fallible
import AximuxSystem.Foundation.FieldWrite
import AximuxSystem.Foundation.RegisterProgram
import AximuxSystem.Foundation.RegisterMap
import AximuxSystem.Foundation.Interleaving
import AximuxSystem.Foundation.Schedule
import AximuxSystem.Foundation.Observer
import AximuxSystem.Foundation.StateStream
import AximuxSystem.Foundation.DtsText
import AximuxSystem.Foundation.DtsSource
import AximuxSystem.Foundation.Patch
import AximuxSystem.Driver.Tables
import AximuxSystem.Driver.Operations
import AximuxSystem.Driver.Scripts
import AximuxSystem.Driver.DeviceTree
import AximuxSystem.Driver.Probe
import AximuxSystem.Driver.TableSpec
import AximuxSystem.Driver.TableBuild
import AximuxSystem.Driver.TableInvariant
import AximuxSystem.Driver.FunctionMemory
import AximuxSystem.Driver.Containment
import AximuxSystem.Driver.Selection
import AximuxSystem.Driver.Routing
import AximuxSystem.Driver.Concurrency
import AximuxSystem.Driver.Binding
import AximuxSystem.Driver.Validation
import AximuxSystem.Driver.Registration
import AximuxSystem.Driver.References
import AximuxSystem.Driver.ReferenceBalance
import AximuxSystem.Driver.Calls
import AximuxSystem.Driver.Pinconf
import AximuxSystem.Driver.PinconfEffect
import AximuxSystem.Driver.Requests
import AximuxSystem.Driver.Dump
import AximuxSystem.Driver.Isolation
import AximuxSystem.Driver.Effects
import AximuxSystem.Driver.Moments
import AximuxSystem.Driver.NamedCalls
import AximuxSystem.Driver.PlatformProbe
import AximuxSystem.Hardware.SlaveMap
import AximuxSystem.Hardware.Programming
import AximuxSystem.Hardware.Datapath
import AximuxSystem.Hardware.EndToEnd
import AximuxSystem.Hardware.Observation
import AximuxSystem.Hardware.AnyRun
import AximuxSystem.Hardware.Lifecycle
import AximuxSystem.Qemu.Device
import AximuxSystem.Qemu.Simulation
import AximuxSystem.Qemu.Traffic
import AximuxSystem.Qemu.Migration
import AximuxSystem.Qemu.Harness
import AximuxSystem.Qemu.BoardPatch
import AximuxSystem.Tool.Document
import AximuxSystem.Tool.Netlist
import AximuxSystem.Tool.NetIndex
import AximuxSystem.Tool.Connections
import AximuxSystem.Tool.Naming
import AximuxSystem.Tool.Groups
import AximuxSystem.Tool.Emit
import AximuxSystem.Tool.CsvStrings
import AximuxSystem.Tool.Nodes
import AximuxSystem.Tool.Children
import AximuxSystem.Tool.Agreement
import AximuxSystem.Tool.Labels
import AximuxSystem.Tool.CorePorts
import AximuxSystem.Tool.Toolchain
import AximuxSystem.Tool.NameClash
import AximuxSystem.Tool.GroupAgreement
import AximuxSystem.Tool.ConsumerWiring
import AximuxSystem.Tool.Legacy
import AximuxSystem.Tool.LegacyGroups
import AximuxSystem.Tool.LegacySource
import AximuxSystem.Foundation.DtsTree
import AximuxSystem.Foundation.Json
import AximuxSystem.Tool.Dump
import AximuxSystem.Tool.SourceText
import AximuxSystem.Tool.Run
