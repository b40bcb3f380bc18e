import CofferLed.Library.Runs
import CofferLed.Library.Counter
import CofferLed.Library.Fair
import CofferLed.Library.Checked
import CofferLed.Library.Bytes
import CofferLed.Library.Ring
import CofferLed.Library.Framing
import CofferLed.Library.FramePlaces
import CofferLed.Library.Circle
import CofferLed.Library.Polyline
import CofferLed.Library.Shares
import CofferLed.Library.PulseWidth
import CofferLed.Library.Avr
import CofferLed.Core.Arithmetic
import CofferLed.Core.HardwareSerial
import CofferLed.Core.Baud
import CofferLed.Core.Overrun
import CofferLed.Core.Transmit
import CofferLed.Core.TransmitOrder
import CofferLed.Core.TransmitReturns
import CofferLed.Core.Wiring
import CofferLed.Core.Latch
import CofferLed.Core.NeoPixel
import CofferLed.Core.Brightness
import CofferLed.Core.ReadBack
import CofferLed.Core.PixelTypes
import CofferLed.Core.PixelRoom
import CofferLed.Core.PixelColors
import CofferLed.Core.GrbStrip
import CofferLed.Core.Show
import CofferLed.Core.Chain
import CofferLed.Core.Pins
import CofferLed.Sketch.Color
import CofferLed.Sketch.ColorLaws
import CofferLed.Sketch.Strip
import CofferLed.Sketch.PixelBuffer
import CofferLed.Sketch.BootEffect
import CofferLed.Sketch.LoadEffect
import CofferLed.Sketch.Resample
import CofferLed.Sketch.Wave
import CofferLed.Sketch.ReceiveMsg
import CofferLed.Sketch.Loop
import CofferLed.Protocol.Refinement
import CofferLed.Protocol.Schedule
import CofferLed.Protocol.RoundTrip
import CofferLed.Protocol.HeaderSound
import CofferLed.Protocol.Backlog
import CofferLed.Protocol.CutOff
import CofferLed.Protocol.Wire
import CofferLed.Effects.BootAnimation
import CofferLed.Effects.BootBlocks
import CofferLed.Effects.WavePhase
import CofferLed.Effects.WaveCircle
import CofferLed.Effects.LoadMonotone
import CofferLed.Effects.LoadRing
import CofferLed.Effects.LoadLocality
import CofferLed.Effects.LoadSmooth
import CofferLed.Effects.StatusLed
import CofferLed.Effects.Frame
import CofferLed.Effects.Safety
import CofferLed.Effects.Picture
import CofferLed.Effects.Panel
import CofferLed.Effects.Lights
import CofferLed.Effects.Board
