import McadBroker.Basic
import McadBroker.Slice
import McadBroker.Disassemble
import McadBroker.Handlers
import McadBroker.Fetch
import McadBroker.System
import McadBroker.EndOfStream
import McadBroker.Stream
import McadBroker.Registration
import McadBroker.Regions
import McadBroker.Receiver
import McadBroker.Ghost
import McadBroker.Origins
import McadBroker.Metadata
import McadBroker.MemoryChain
import McadBroker.SequenceNumbers
import McadBroker.Server
import McadBroker.Features
import McadBroker.PluginArgs
import McadBroker.Conservation
import McadBroker.Atomicity
import McadBroker.FetchStream
